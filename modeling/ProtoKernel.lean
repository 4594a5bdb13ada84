import ProtoKernel.Lib.Ffs
import ProtoKernel.Irqchip.ImsicRegs
import ProtoKernel.Irqchip.ImsicHandle
import ProtoKernel.Irqchip.ImsicAttach
import ProtoKernel.Irqchip.ImsicFile
import ProtoKernel.Irq.Msi.Free
import ProtoKernel.Irq.Msi.Cleanup
import ProtoKernel.Irq.Msi.Concurrent
import ProtoKernel.Irq.Msi.Serial
import ProtoKernel.Irq.Msi.Accounting
import ProtoKernel.Irq.Msi.Interleaving
