import Mathlib.Data.List.Chain
import ProtoKernel.Irq.Msi.Model

/-!
# The per-device registry as a list

`Registry h r xs` says that the registry with sentinel `r` holds the descriptors `xs` in list
order: `r` is a live `msi_device_data` whose `num_vectors` is the length of `xs`, every
element is a live descriptor, no node repeats, and the `next`/`prev` links go round
`r, xs..., r` (`Adj`). This is the shape every operation must restore.

* `Registry.frame`: a registry is unaffected by writes outside its nodes.
* `msiDescListAddLocked_spec`: appending a descriptor gives `xs ++ [p]`.
* `unlink_spec`, `removeDesc_spec`: splicing out a node gives the list without it.
-/

namespace ProtoKernel.Irq

/-- A descriptor without its links, which the list order determines. -/
def MsiDesc.erase (d : MsiDesc) : MsiDesc := { d with list := ⟨0, 0⟩ }

@[simp] theorem MsiDesc.erase_list (d : MsiDesc) (l : ListHead) :
    { d with list := l }.erase = d.erase := rfl

@[simp] theorem MsiDesc.erase_hwirq (d : MsiDesc) : d.erase.hwirq = d.hwirq := rfl

@[simp] theorem MsiDesc.erase_irq (d : MsiDesc) : d.erase.irq = d.irq := rfl

namespace Heap

/-- The descriptors at `xs`, without their links: what a registry holds, in order. -/
def view (h : Heap) (xs : List Nat) : List (Option MsiDesc) :=
  xs.map fun x => (h.desc x).map MsiDesc.erase

@[simp] theorem view_append (h : Heap) (xs ys : List Nat) :
    h.view (xs ++ ys) = h.view xs ++ h.view ys :=
  List.map_append _ _ _

@[simp] theorem view_nil (h : Heap) : h.view [] = [] := rfl

theorem view_cons_of_desc {h : Heap} {x : Nat} {d : MsiDesc} (xs : List Nat)
    (hd : h.desc x = some d) : h.view (x :: xs) = some d.erase :: h.view xs := by
  simp [view, hd]

/-- A descriptor listed in a view is the erased descriptor of one of its nodes. -/
theorem exists_of_mem_view {h : Heap} {xs : List Nat} {ds : List MsiDesc}
    (hv : h.view xs = ds.map some) {e : MsiDesc} (he : e ∈ ds) :
    ∃ x ∈ xs, ∃ d, h.desc x = some d ∧ d.erase = e := by
  have : some e ∈ h.view xs := hv ▸ List.mem_map_of_mem _ he
  obtain ⟨x, hx, hxe⟩ := List.mem_map.mp this
  obtain ⟨d, hd, rfl⟩ := Option.map_eq_some'.mp hxe
  exact ⟨x, hx, d, hd, rfl⟩

/-- The view of `mid ++ y :: post` splits at the descriptor of `y`. -/
theorem view_split {h : Heap} {mid post : List Nat} {y : Nat} {ds : List MsiDesc} {dy : MsiDesc}
    (hv : h.view (mid ++ y :: post) = ds.map some) (hy : h.desc y = some dy) :
    ∃ ds₁ ds₂, ds = ds₁ ++ dy.erase :: ds₂ ∧ h.view mid = ds₁.map some ∧
      h.view post = ds₂.map some := by
  rw [view_append, view_cons_of_desc _ hy] at hv
  obtain ⟨ds₁, ds', rfl, h₁, h'⟩ := List.map_eq_append_iff.mp hv.symm
  obtain ⟨e, ds₂, rfl, he, h₂⟩ := List.map_eq_cons_iff.mp h'
  cases he
  exact ⟨ds₁, ds₂, rfl, h₁.symm, h₂.symm⟩

theorem view_congr {h h' : Heap} {xs : List Nat}
    (hx : ∀ x ∈ xs, (h'.desc x).map MsiDesc.erase = (h.desc x).map MsiDesc.erase) :
    h'.view xs = h.view xs :=
  List.map_congr_left hx

theorem link_put (h : Heap) (p : Nat) (o : Obj) (q : Nat) :
    (h.put p o).link q = if q = p ∧ (h.mem p).isSome then some o.list else h.link q := by
  simp only [link, mem_put]
  split <;> simp

theorem desc_put (h : Heap) (p : Nat) (o : Obj) (q : Nat) :
    (h.put p o).desc q = if q = p ∧ (h.mem p).isSome then o.asDesc else h.desc q := by
  unfold desc
  rw [mem_put]
  split_ifs <;> rfl

theorem data_put (h : Heap) (p : Nat) (o : Obj) (q : Nat) :
    (h.put p o).data q = if q = p ∧ (h.mem p).isSome then o.asData else h.data q := by
  unfold data
  rw [mem_put]
  split_ifs <;> rfl

end Heap

/-- `b` follows `a`: `a->list.next == b` and `b->list.prev == a`. -/
def Adj (h : Heap) (a b : Nat) : Prop :=
  (h.link a).map ListHead.next = some b ∧ (h.link b).map ListHead.prev = some a

/-- The list with sentinel `r` runs through the descriptors `xs`, in list order: `r` is a
live `msi_device_data`, every element a live descriptor, no node repeats, and the
`next`/`prev` links go round `r, xs..., r` (`Adj`). -/
structure Ring (h : Heap) (r : Nat) (xs : List Nat) : Prop where
  sentinel : ∃ md, h.data r = some md
  descs : ∀ x ∈ xs, ∃ d, h.desc x = some d
  nodup : (r :: xs).Nodup
  chain : (r :: xs ++ [r]).Chain' (Adj h)

/-- The registry with sentinel `r` holds the descriptors `xs`: a ring whose `num_vectors` is
its length. -/
structure Registry (h : Heap) (r : Nat) (xs : List Nat) extends Ring h r xs : Prop where
  count : ∃ md, h.data r = some md ∧ md.numVectors = xs.length

/-- A chain of links survives a write that keeps the `next` of every node but the last and
the `prev` of every node but the first. -/
theorem chain_adj_congr {h h' : Heap} :
    ∀ {l : List Nat}, l.Chain' (Adj h) →
      (∀ a ∈ l.dropLast, (h'.link a).map ListHead.next = (h.link a).map ListHead.next) →
      (∀ b ∈ l.tail, (h'.link b).map ListHead.prev = (h.link b).map ListHead.prev) →
      l.Chain' (Adj h')
  | [], _, _, _ => List.chain'_nil
  | [_], _, _, _ => List.chain'_singleton _
  | a :: b :: l, hc, hn, hp => by
    rw [List.chain'_cons] at hc ⊢
    refine ⟨⟨?_, ?_⟩, chain_adj_congr hc.2 (fun x hx => hn x ?_) (fun x hx => hp x ?_)⟩
    · rw [hn a (by simp)]; exact hc.1.1
    · rw [hp b (by simp)]; exact hc.1.2
    · rw [List.dropLast_cons₂]; exact List.mem_cons_of_mem _ hx
    · exact List.mem_cons_of_mem _ hx

theorem Ring.mem_live {h : Heap} {r : Nat} {xs : List Nat} (hring : Ring h r xs) :
    ∀ q ∈ r :: xs, (h.mem q).isSome := by
  intro q hq
  rcases List.mem_cons.mp hq with rfl | hq
  · obtain ⟨md, hmd⟩ := hring.sentinel
    simp [Heap.data_eq_some.mp hmd]
  · obtain ⟨d, hd⟩ := hring.descs q hq
    simp [Heap.desc_eq_some.mp hd]

/-- A ring survives a write that keeps every element and the sentinel's links, and leaves
the sentinel a `msi_device_data`. -/
theorem Ring.congr {h h' : Heap} {r : Nat} {xs : List Nat} (hring : Ring h r xs)
    (hm : ∀ q ∈ xs, h'.mem q = h.mem q) (hr : h'.link r = h.link r)
    (hrd : ∃ md, h'.data r = some md) : Ring h' r xs := by
  have hlink : ∀ q ∈ r :: xs, h'.link q = h.link q := fun q hq => by
    rcases List.mem_cons.mp hq with rfl | hq
    · exact hr
    · simp [Heap.link, hm q hq]
  refine ⟨hrd, fun x hx => ?_, hring.nodup, chain_adj_congr hring.chain (fun a ha => ?_)
    (fun b hb => ?_)⟩
  · obtain ⟨d, hd⟩ := hring.descs x hx
    exact ⟨d, by simpa [Heap.desc, hm x hx] using hd⟩
  · rw [List.cons_append, List.dropLast_cons_of_ne_nil (by simp), List.dropLast_concat] at ha
    rw [hlink a ha]
  · rw [hlink b]
    simp only [List.cons_append, List.tail_cons, List.mem_append, List.mem_singleton] at hb
    rcases hb with hb | rfl
    · exact List.mem_cons_of_mem _ hb
    · exact List.mem_cons_self _ _

/-- A registry is unaffected by writes outside its nodes. -/
theorem Registry.frame {h h' : Heap} {r : Nat} {xs : List Nat} (hreg : Registry h r xs)
    (hm : ∀ q ∈ r :: xs, h'.mem q = h.mem q) : Registry h' r xs := by
  have hdata : h'.data r = h.data r := by simp [Heap.data, hm r (List.mem_cons_self _ _)]
  obtain ⟨md, hmd, hnum⟩ := hreg.count
  exact ⟨hreg.toRing.congr (fun q hq => hm q (List.mem_cons_of_mem _ hq))
    (by simp [Heap.link, hm r (List.mem_cons_self _ _)]) ⟨md, hdata ▸ hmd⟩,
    ⟨md, hdata ▸ hmd, hnum⟩⟩

/-! ## Creation -/

/-- The sentinel `msi_device_init` allocates is an empty registry. -/
theorem registry_alloc (h : Heap) (p : Nat) : Registry (h.alloc p (.data ⟨⟨p, p⟩, 0⟩)) p [] :=
  ⟨⟨⟨_, by simp [Heap.data]; rfl⟩, by simp, by simp, by simp [Adj, Heap.link]⟩,
    ⟨⟨⟨p, p⟩, 0⟩, by simp [Heap.data], rfl⟩⟩

/-- `msi_device_init(dev)` with `kmalloc` returning a fresh `p` gives `dev` the empty registry
`p` and writes nothing else. -/
theorem msiDeviceInit_spec {s : State} {dev p : Nat} (hdev : dev ≠ 0) :
    msiDeviceInit s dev (some p) = (0, { s with
      heap := s.heap.alloc p (.data ⟨⟨p, p⟩, 0⟩)
      devs := Function.update s.devs dev { s.devs dev with msiData := p } }) ∧
    Registry (s.heap.alloc p (.data ⟨⟨p, p⟩, 0⟩)) p [] :=
  ⟨by simp [msiDeviceInit, hdev], registry_alloc s.heap p⟩

/-! ## Appending -/

/-- The last node of `r :: xs`, which the sentinel's `prev` names. -/
def lastOf (r : Nat) (xs : List Nat) : Nat := (r :: xs).getLast (List.cons_ne_nil _ _)

theorem Ring.chain_last {h : Heap} {r : Nat} {xs : List Nat} (hring : Ring h r xs) :
    (r :: xs).Chain' (Adj h) ∧ Adj h (lastOf r xs) r := by
  have := hring.chain
  rw [List.cons_append, ← List.cons_append, List.chain'_append] at this
  refine ⟨this.1, this.2.2 _ ?_ r rfl⟩
  rw [List.getLast?_eq_getLast _ (List.cons_ne_nil _ _)]
  rfl

theorem lastOf_mem (r : Nat) (xs : List Nat) : lastOf r xs ∈ r :: xs := List.getLast_mem _

theorem not_mem_dropLast_lastOf {r : Nat} {xs : List Nat} (hnd : (r :: xs).Nodup) :
    lastOf r xs ∉ (r :: xs).dropLast := by
  have := List.dropLast_append_getLast (List.cons_ne_nil r xs)
  rw [← this, List.nodup_append] at hnd
  exact fun hm => hnd.2.2 hm (List.mem_singleton_self _)

/-- The heap after `msi_desc_list_add_locked(r, p)`: `p` goes between the old last node `a`
and the sentinel. -/
theorem msiDescListAddLocked_mem {h : Heap} {r p a : Nat} {d : MsiDesc} {md : MsiDeviceData}
    {oa : Obj} (hr : r ≠ 0) (hp0 : p ≠ 0) (hpd : h.mem p = some (.desc d))
    (hmd : h.mem r = some (.data md)) (ha : md.list.prev = a) (hoa : h.mem a = some oa)
    (hpr : p ≠ r) (hpa : p ≠ a) :
    ∃ h', msiDescListAddLocked h r p = some (0, h') ∧ h'.top = h.top ∧
      h'.mem = Function.update (Function.update (Function.update h.mem a
        (some (oa.setList { oa.list with next := p })))
        r (some (.data ⟨⟨if r = a then p else md.list.next, p⟩, md.numVectors + 1⟩)))
        p (some (.desc { d with list := ⟨r, a⟩, refcount := d.refcount + 1 })) := by
  subst ha
  -- the writes of `msi_desc_list_add_locked` in order, each to a live node
  obtain ⟨h₁, e₁, t₁, m₁⟩ := Heap.setLink_spec (fun l => { l with next := r }) hpd
  have l₁ : h₁.link r = some md.list := by simp [Heap.link, m₁, hpr.symm, hmd]
  obtain ⟨h₂, e₂, t₂, m₂⟩ := Heap.setLink_spec (fun l => { l with prev := md.list.prev })
    (by rw [m₁, Function.update_same])
  have l₂ : h₂.link r = some md.list := by simp [Heap.link, m₂, m₁, hpr.symm, hmd]
  obtain ⟨h₃, e₃, t₃, m₃⟩ := Heap.setLink_spec (fun l => { l with next := p })
    (show h₂.mem md.list.prev = some oa by simp [m₂, m₁, hpa.symm, hoa])
  have r₃ : h₃.mem r = some (.data ⟨⟨if r = md.list.prev then p else md.list.next,
      md.list.prev⟩, md.numVectors⟩) := by
    by_cases hra : r = md.list.prev
    · have hoa' : oa = .data md := by rw [← hra, hmd] at hoa; exact (Option.some.inj hoa).symm
      rw [m₃, hra, Function.update_same, if_pos rfl, hoa']
      rfl
    · rw [m₃, Function.update_noteq hra, m₂, m₁, Function.update_noteq hpr.symm,
        Function.update_noteq hpr.symm, hmd, if_neg hra]
  obtain ⟨h₄, e₄, t₄, m₄⟩ := Heap.setLink_spec (fun l => { l with prev := p }) r₃
  have hd₄ : h₄.data r =
      some ⟨⟨if r = md.list.prev then p else md.list.next, p⟩, md.numVectors⟩ := by
    simp [Heap.data, m₄]
  obtain ⟨h₅, e₅, t₅, m₅⟩ := Heap.setData_spec
    ⟨⟨if r = md.list.prev then p else md.list.next, p⟩, md.numVectors + 1⟩ hd₄
  have d₅ : h₅.desc p = some { d with list := ⟨r, md.list.prev⟩ } := by
    simp [Heap.desc, m₅, m₄, m₃, m₂, m₁, hpr, hpa]
  obtain ⟨h₆, e₆, t₆, m₆⟩ := Heap.setDesc_spec
    { d with list := ⟨r, md.list.prev⟩, refcount := d.refcount + 1 } d₅
  refine ⟨h₆, ?_, by rw [t₆, t₅, t₄, t₃, t₂, t₁], ?_⟩
  · simp only [msiDescListAddLocked, hr, hp0, or_self, if_false, Option.bind_eq_bind,
      Heap.setNext, Heap.setPrev, e₁, Option.some_bind, l₁, e₂, l₂, e₃, e₄, hd₄, e₅, d₅, e₆]
  · rw [m₆, m₅, m₄, Function.update_idem, m₃, m₂, m₁, Function.update_idem,
      Function.update_comm hpa, Function.update_comm hpr, Function.update_idem]

theorem Registry.sentinel_mem {h : Heap} {r : Nat} {xs : List Nat} (hreg : Registry h r xs) :
    ∃ md, h.mem r = some (.data md) ∧ md.numVectors = xs.length ∧ md.list.prev = lastOf r xs := by
  obtain ⟨md, hmd, hnum⟩ := hreg.count
  have hmd' := Heap.data_eq_some.mp hmd
  refine ⟨md, hmd', hnum, ?_⟩
  have := hreg.chain_last.2.2
  simpa [Heap.link, hmd'] using this

/-- `msi_desc_list_add_locked(r, p)` on the registry `xs` and a descriptor `p` outside it
gives the registry `xs ++ [p]`, counts one more reference to `p`, and writes nothing outside
`r`, `p` and the old last node. -/
theorem msiDescListAddLocked_spec {h : Heap} {r p : Nat} {xs : List Nat} {d : MsiDesc}
    (hreg : Registry h r xs) (hr : r ≠ 0) (hp0 : p ≠ 0) (hpd : h.desc p = some d)
    (hpx : p ∉ r :: xs) :
    ∃ h', msiDescListAddLocked h r p = some (0, h') ∧ Registry h' r (xs ++ [p]) ∧
      h'.top = h.top ∧ (∀ q, q ∉ r :: p :: xs → h'.mem q = h.mem q) ∧
      (∀ q, q ≠ p → (h'.desc q).map MsiDesc.erase = (h.desc q).map MsiDesc.erase) ∧
      (h'.desc p).map MsiDesc.erase = some { d with refcount := d.refcount + 1 }.erase := by
  obtain ⟨md, hmd, hnum, hprev⟩ := hreg.sentinel_mem
  obtain ⟨hch, -⟩ := hreg.chain_last
  have hnd := hreg.nodup
  have hadrop := not_mem_dropLast_lastOf hnd
  have haw := lastOf_mem r xs
  set a := lastOf r xs
  obtain ⟨oa, hoa⟩ := Option.isSome_iff_exists.mp (hreg.mem_live a haw)
  have hpr : p ≠ r := fun h => hpx (h ▸ List.mem_cons_self _ _)
  have hpa : p ≠ a := fun h => hpx (h ▸ haw)
  obtain ⟨h', hrun, htop, hmem⟩ :=
    msiDescListAddLocked_mem hr hp0 (Heap.desc_eq_some.mp hpd) hmd hprev hoa hpr hpa
  -- the descriptor at `a`, when `a` is not the sentinel
  have hda : a ≠ r → ∃ da, oa = .desc da := fun har => by
    obtain ⟨da, hda⟩ := hreg.descs a (by simpa [har] using haw)
    exact ⟨da, by simpa [Heap.desc_eq_some.mp hda] using hoa.symm⟩
  have hlink : ∀ q, h'.link q =
      if q = p then some ⟨r, a⟩
      else if q = r then some ⟨if r = a then p else md.list.next, p⟩
      else if q = a then some { oa.list with next := p } else h.link q := by
    intro q
    simp only [Heap.link, hmem, Function.update_apply]
    split_ifs <;> simp
  have hdesc : ∀ q, q ≠ p → (h'.desc q).map MsiDesc.erase = (h.desc q).map MsiDesc.erase := by
    intro q hqp
    by_cases hqr : q = r
    · subst hqr; simp [Heap.desc, hmem, hqp, hmd]
    · by_cases hqa : q = a
      · subst hqa
        obtain ⟨da, rfl⟩ := hda hqr
        simp [Heap.desc, hmem, hqp, hqr, hoa, MsiDesc.erase]
      · simp [Heap.desc, hmem, hqp, hqr, hqa]
  have hdata : h'.data r = some ⟨⟨if r = a then p else md.list.next, p⟩, md.numVectors + 1⟩ := by
    simp [Heap.data, hmem, Ne.symm hpr]
  refine ⟨h', hrun, ⟨⟨⟨_, hdata⟩, ?_, ?_, ?_⟩, ⟨_, hdata, by simp [hnum]⟩⟩,
    htop, fun q hq => ?_, hdesc, by simp [Heap.desc, hmem, MsiDesc.erase]⟩
  · -- every node of `xs ++ [p]` is a descriptor
    intro x hx
    rcases List.mem_append.mp hx with hx | hx
    · have hxp : x ≠ p := fun h => hpx (h ▸ List.mem_cons_of_mem _ hx)
      obtain ⟨d₀, hd₀⟩ := hreg.descs x hx
      have := hdesc x hxp
      rw [hd₀] at this
      obtain ⟨d₁, hd₁, -⟩ := Option.map_eq_some'.mp this
      exact ⟨d₁, hd₁⟩
    · rw [List.mem_singleton.mp hx]
      exact ⟨{ d with list := ⟨r, a⟩, refcount := d.refcount + 1 }, by simp [Heap.desc, hmem]⟩
  · rw [← List.cons_append, List.nodup_append]
    exact ⟨hnd, List.nodup_singleton _, List.disjoint_singleton.mpr hpx⟩
  · rw [show r :: (xs ++ [p]) ++ [r] = (r :: xs) ++ [p, r] by simp, List.chain'_append]
    refine ⟨chain_adj_congr hch (fun u hu => ?_) (fun v hv => ?_), ?_, ?_⟩
    · have hua : u ≠ a := fun h => hadrop (h ▸ hu)
      have hup : u ≠ p := fun h => hpx (h ▸ List.dropLast_subset _ hu)
      rw [hlink u, if_neg hup]
      by_cases hur : u = r
      · subst hur; simp [hua, Heap.link, hmd]
      · simp [hur, hua]
    · have hvr : v ≠ r := fun h => (List.nodup_cons.mp hnd).1 (h ▸ hv)
      have hvp : v ≠ p := fun h => hpx (h ▸ List.mem_cons_of_mem _ hv)
      rw [hlink v, if_neg hvp, if_neg hvr]
      by_cases hva : v = a
      · subst hva; simp [Heap.link, hoa]
      · simp [hva]
    · rw [List.chain'_pair]
      exact ⟨by simp [hlink], by simp [hlink, Ne.symm hpr]⟩
    · intro x hx y hy
      rw [List.getLast?_eq_getLast _ (List.cons_ne_nil _ _), Option.mem_some_iff] at hx
      simp only [List.head?_cons, Option.mem_some_iff] at hy
      have hxa : x = a := hx.symm
      subst hxa hy
      refine ⟨?_, by simp [hlink]⟩
      by_cases hra : r = a
      · rw [hlink, if_neg (Ne.symm hpa), if_pos hra.symm, if_pos hra]; rfl
      · rw [hlink, if_neg (Ne.symm hpa), if_neg (Ne.symm hra), if_pos rfl]; rfl
  · simp only [List.mem_cons, not_or] at hq
    have hqa : q ≠ a := fun h => by
      rcases List.mem_cons.mp (h ▸ haw) with h' | h'
      · exact hq.1 h'
      · exact hq.2.2 h'
    simp [hmem, hq.1, hq.2.1, hqa]

/-! ## Removing -/

theorem link_eq_of_map {o : Option ListHead} {n p : Nat} (hn : o.map ListHead.next = some n)
    (hp : o.map ListHead.prev = some p) : o = some ⟨n, p⟩ := by
  cases o with
  | none => cases hn
  | some l => simp only [Option.map_some', Option.some.injEq] at hn hp; subst hn hp; rfl

/-- The links of a registry node: its successor in `r :: xs ++ [r]`, and its predecessor. -/
theorem Ring.link_eq {h : Heap} {r x : Nat} {pre rest : List Nat}
    (hring : Ring h r (pre ++ x :: rest)) :
    h.link x = some ⟨rest.headD r, lastOf r pre⟩ := by
  have hc := hring.chain
  rw [show r :: (pre ++ x :: rest) ++ [r] = (r :: pre) ++ x :: (rest ++ [r]) by simp,
    List.chain'_append] at hc
  obtain ⟨-, hxs, hjoin⟩ := hc
  have hpx : Adj h (lastOf r pre) x :=
    hjoin _ (by rw [List.getLast?_eq_getLast _ (List.cons_ne_nil _ _)]; rfl) x rfl
  have hxn : Adj h x (rest.headD r) := by
    cases rest with
    | nil => exact (List.chain'_pair.mp hxs)
    | cons y ys => exact (List.chain'_cons.mp hxs).1
  exact link_eq_of_map hxn.1 hpx.2

/-- In a registry, a descriptor's `next` is the node after it. -/
theorem Ring.next_eq {h : Heap} {r x : Nat} {pre rest : List Nat} {d : MsiDesc}
    (hring : Ring h r (pre ++ x :: rest)) (hd : h.desc x = some d) :
    d.list.next = rest.headD r := by
  have := (Heap.link_of_desc hd).symm.trans hring.link_eq
  simp only [Option.some.injEq] at this
  rw [this]

theorem Ring.sentinel_link {h : Heap} {r : Nat} {xs : List Nat} (hring : Ring h r xs) :
    h.link r = some ⟨xs.headD r, lastOf r xs⟩ := by
  have hc := hring.chain
  have hrx : Adj h r (xs.headD r) := by
    cases xs with
    | nil => exact (List.chain'_pair.mp hc)
    | cons y ys => exact (List.chain'_cons.mp hc).1
  exact link_eq_of_map hrx.1 hring.chain_last.2.2

/-- `unlink x` on the element `x` of a ring gives the ring without `x`. It writes only the
links of the two neighbours of `x`: `x` keeps its own links. -/
theorem Ring.unlink_spec {h : Heap} {r x : Nat} {pre rest : List Nat}
    (hring : Ring h r (pre ++ x :: rest)) :
    ∃ h', h.unlink x = some h' ∧ Ring h' r (pre ++ rest) ∧ h'.top = h.top ∧
      h'.mem x = h.mem x ∧ (∀ q, q ∉ r :: (pre ++ x :: rest) → h'.mem q = h.mem q) ∧
      (∀ q, (h'.desc q).map MsiDesc.erase = (h.desc q).map MsiDesc.erase) ∧
      ∀ q, (h'.data q).map MsiDeviceData.numVectors = (h.data q).map MsiDeviceData.numVectors := by
  have hc := hring.chain
  rw [show r :: (pre ++ x :: rest) ++ [r] = (r :: pre) ++ x :: (rest ++ [r]) by simp,
    List.chain'_append] at hc
  obtain ⟨hc₁, hc₂, -⟩ := hc
  have hpdrop : lastOf r pre ∉ (r :: pre).dropLast :=
    not_mem_dropLast_lastOf (hring.nodup.sublist (by simp))
  have hlast : (r :: pre).getLast? = some (lastOf r pre) := by
    rw [List.getLast?_eq_getLast _ (List.cons_ne_nil _ _)]; rfl
  have hhead : (rest ++ [r]).head? = some (rest.headD r) := by cases rest <;> rfl
  have hp : lastOf r pre ∈ r :: pre := lastOf_mem r pre
  have hn : rest.headD r = r ∨ rest.headD r ∈ rest := by cases rest <;> simp
  have hnd := hring.nodup
  simp only [List.nodup_cons, List.nodup_append, List.mem_append, List.mem_cons, not_or,
    List.disjoint_cons_right] at hnd
  obtain ⟨⟨hrpre, hrx, hrrest⟩, hpre, ⟨hxrest, hrest⟩, hxpre, hdisj⟩ := hnd
  have hntail : rest.headD r ∉ (rest ++ [r]).tail := by
    cases rest with
    | nil => exact List.not_mem_nil _
    | cons y ys =>
      simp only [List.headD_cons, List.cons_append, List.tail_cons, List.mem_append,
        List.mem_singleton, not_or]
      exact ⟨(List.nodup_cons.mp hrest).1, fun h => hrrest (h ▸ List.mem_cons_self _ _)⟩
  have hl := hring.link_eq
  generalize lastOf r pre = p at hpdrop hlast hp hl
  generalize rest.headD r = n at hhead hn hntail hl
  have hpm : p ∈ r :: (pre ++ x :: rest) :=
    (List.cons_subset_cons r (List.subset_append_left pre _)) hp
  have hnm : n ∈ r :: (pre ++ x :: rest) := by
    rcases hn with rfl | h
    · exact List.mem_cons_self _ _
    · exact List.mem_cons_of_mem _ (List.mem_append_right _ (List.mem_cons_of_mem _ h))
  have hxp : x ≠ p := by
    rintro rfl
    rcases List.mem_cons.mp hp with h | h
    exacts [hrx h.symm, hxpre h]
  have hxn : x ≠ n := by
    rintro rfl
    rcases hn with h | h
    exacts [hrx h.symm, hxrest h]
  have hprest : p ∉ rest := fun h => by
    rcases List.mem_cons.mp hp with h' | h'
    · exact hrrest (h' ▸ h)
    · exact hdisj h' h
  have hnpre : n ∉ pre := fun h => hn.elim (fun h' => hrpre (h' ▸ h)) (hdisj h)
  obtain ⟨h', hu, htop, hmem⟩ :=
    Heap.unlink_mem hl (hring.mem_live n hnm) (hring.mem_live p hpm) hxn
  -- only `p.next` and `n.prev` change
  have hnext : ∀ q, q ≠ p → (h'.link q).map ListHead.next = (h.link q).map ListHead.next := by
    intro q hqp
    simp only [Heap.link, hmem, if_neg hqp]
    split_ifs <;> simp [Option.map_map, Function.comp_def]
  have hprev : ∀ q, q ≠ n → (h'.link q).map ListHead.prev = (h.link q).map ListHead.prev := by
    intro q hqn
    simp only [Heap.link, hmem, if_neg hqn]
    split_ifs with hqp hpn
    · exact absurd (hqp.trans hpn) hqn
    · simp [Option.map_map, Function.comp_def]
    · rfl
  have hpn : Adj h' p n := by
    obtain ⟨oP, hoP⟩ := Option.isSome_iff_exists.mp (hring.mem_live p hpm)
    obtain ⟨oN, hoN⟩ := Option.isSome_iff_exists.mp (hring.mem_live n hnm)
    constructor
    · simp [Heap.link, hmem, hoP]
    · by_cases hpn : p = n
      · simp [Heap.link, hmem, hoN, hpn]
      · simp [Heap.link, hmem, hoN, Ne.symm hpn]
  have hdesc : ∀ q, (h'.desc q).map MsiDesc.erase = (h.desc q).map MsiDesc.erase := by
    intro q
    simp only [Heap.desc, hmem]
    split_ifs <;> cases h.mem q <;> simp [Option.map_map, Function.comp_def]
  have hdata : ∀ q, (h'.data q).map MsiDeviceData.numVectors =
      (h.data q).map MsiDeviceData.numVectors := by
    intro q
    simp only [Heap.data, hmem]
    split_ifs <;> cases h.mem q <;> simp [Option.map_map, Function.comp_def]
  refine ⟨h', hu, ⟨?_, fun y hy => ?_, ?_, ?_⟩, htop, by rw [hmem, if_neg hxp, if_neg hxn],
    fun q hq => ?_, hdesc, hdata⟩
  · obtain ⟨md, hmd⟩ := hring.sentinel
    have := hdata r
    rw [hmd] at this
    obtain ⟨md', hmd', -⟩ := Option.map_eq_some'.mp this
    exact ⟨md', hmd'⟩
  · obtain ⟨d, hd⟩ := hring.descs y (((List.sublist_cons_self x rest).append_left pre).subset hy)
    have := hdesc y
    rw [hd] at this
    obtain ⟨d', hd', -⟩ := Option.map_eq_some'.mp this
    exact ⟨d', hd'⟩
  · exact hring.nodup.sublist (((List.sublist_cons_self x rest).append_left pre).cons₂ r)
  · have hc₂' : (rest ++ [r]).Chain' (Adj h) := hc₂.tail
    rw [show r :: (pre ++ rest) ++ [r] = (r :: pre) ++ (rest ++ [r]) by simp, List.chain'_append]
    refine ⟨chain_adj_congr hc₁ (fun a ha => hnext a ?_) (fun b hb => hprev b ?_),
      chain_adj_congr hc₂' (fun a ha => hnext a ?_) (fun b hb => hprev b ?_),
      fun a ha b hb => ?_⟩
    · rintro rfl; exact hpdrop ha
    · rintro rfl; exact hnpre hb
    · rintro rfl; rw [List.dropLast_concat] at ha; exact hprest ha
    · rintro rfl; exact hntail hb
    · rw [hlast, Option.mem_some_iff] at ha
      rw [hhead, Option.mem_some_iff] at hb
      subst ha hb
      exact hpn
  · have hqp : q ≠ p := fun h => hq (h ▸ hpm)
    have hqn : q ≠ n := fun h => hq (h ▸ hnm)
    rw [hmem, if_neg hqp, if_neg hqn]

/-- `removeDesc` of the element `x` of a registry gives the registry without `x`, frees `x`,
and changes no descriptor's fields other than the links of its two neighbours. -/
theorem removeDesc_spec {h : Heap} {r x : Nat} {pre rest : List Nat}
    (hreg : Registry h r (pre ++ x :: rest)) :
    ∃ h', removeDesc h r x = some h' ∧ Registry h' r (pre ++ rest) ∧ h'.top = h.top ∧
      h'.mem x = none ∧ (∀ q, q ∉ r :: (pre ++ x :: rest) → h'.mem q = h.mem q) ∧
      (∀ q, q ≠ x → (h'.desc q).map MsiDesc.erase = (h.desc q).map MsiDesc.erase) := by
  have hnd := List.nodup_cons.mp hreg.nodup
  have hxr : x ≠ r := fun h => hnd.1 (h ▸ List.mem_append_right _ (List.mem_cons_self _ _))
  obtain ⟨h₁, hu, hring₁, htop₁, hx₁, hframe₁, hdesc₁, hdata₁⟩ := hreg.toRing.unlink_spec
  obtain ⟨md, hmd, hnum⟩ := hreg.count
  obtain ⟨md₁, hmd₁, hnv⟩ : ∃ md₁ : MsiDeviceData,
      h₁.data r = some md₁ ∧ md₁.numVectors = md.numVectors := by
    have := hdata₁ r
    rw [hmd] at this
    exact Option.map_eq_some'.mp this
  obtain ⟨ox, hox⟩ := Option.isSome_iff_exists.mp (hreg.mem_live x (by simp))
  set h₂ := h₁.put r (.data { md₁ with numVectors := md₁.numVectors - 1 }) with hh₂
  have hmem₃ : ∀ q, (h₂.drop x).mem q = if q = x then none
      else if q = r then some (.data { md₁ with numVectors := md₁.numVectors - 1 })
      else h₁.mem q := by
    intro q
    simp only [hh₂, Heap.drop_mem, Function.update_apply, Heap.mem_put,
      Heap.data_eq_some.mp hmd₁, Option.isSome_some, and_true]
  have hrun : removeDesc h r x = some (h₂.drop x) := by
    have hx₂ : h₂.mem x = some ox := by rw [hh₂, Heap.mem_put, if_neg fun h => hxr h.1, hx₁, hox]
    simp [removeDesc, hu, hmd₁, Heap.setData_of_data _ hmd₁, ← hh₂, Heap.free_of_mem hx₂]
  have hdata₃ : (h₂.drop x).data r = some { md₁ with numVectors := md₁.numVectors - 1 } := by
    simp [Heap.data, hmem₃, Ne.symm hxr]
  have hpx : ∀ q ∈ pre ++ rest, q ≠ x ∧ q ≠ r := fun q hq =>
    ⟨fun h => (List.nodup_cons.mp (List.nodup_middle.mp hnd.2)).1 (h ▸ hq),
      fun h => hnd.1 (h ▸ ((List.sublist_cons_self x rest).append_left pre).subset hq)⟩
  refine ⟨h₂.drop x, hrun, ⟨hring₁.congr (fun q hq => ?_) ?_ ⟨_, hdata₃⟩,
      ⟨_, hdata₃, by simp [hnv, hnum]⟩⟩, by simp [hh₂, htop₁], by simp [hmem₃],
    fun q hq => ?_, fun q hqx => ?_⟩
  · rw [hmem₃, if_neg (hpx q hq).1, if_neg (hpx q hq).2]
  · simp [Heap.link, hmem₃, Ne.symm hxr, Heap.data_eq_some.mp hmd₁]
  · have hqx : q ≠ x := fun h => hq (by simp [h])
    have hqr : q ≠ r := fun h => hq (by simp [h])
    rw [hmem₃, if_neg hqx, if_neg hqr, hframe₁ q hq]
  · rw [← hdesc₁ q]
    by_cases hqr : q = r
    · subst hqr; simp [Heap.desc, hmem₃, hqx, Heap.data_eq_some.mp hmd₁]
    · simp [Heap.desc, hmem₃, hqx, hqr]

end ProtoKernel.Irq
