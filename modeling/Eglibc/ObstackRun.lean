import Eglibc.Obstack

/-!
# An obstack is a stack of byte strings

Each operation keeps the invariant of the obstack, the move of the object being built to a
new chunk included.
-/
namespace Eglibc.Obstacks
open Flat

variable {below : List Held} {top : List Object}

section
variable {u : Setup} {f : Chunkfun} {s : State} {top : List Object} {below : List Held}

lemma le_newSize (u : Setup) (h : Obstack) (length : ℕ) :
    h.nextFree - h.objectBase + length + u.alignmentMask + 100 ≤ newSize u h length := by
  unfold newSize
  dsimp only
  split_ifs <;> omega

section
variable (h : Inv u s top below)
include h

lemma Inv.objSize : s.obstack.nextFree - s.obstack.objectBase = s.building.length := by
  rw [h.next]
  omega

lemma newchunk_mem (length : ℕ) : let size := newSize u s.obstack length
    let base := f.base s.obstack size
    (∀ a, a < base ∨ base + size ≤ a → (newchunk u f s.obstack length).mem a = s.obstack.mem a) ∧
      read (newchunk u f s.obstack length).mem (u.start base) s.building.length = s.building := by
  intro size base
  have hsize := le_newSize u s.obstack length
  rw [h.objSize] at hsize
  have hstart := u.lt_start base
  have hstart' := u.start_le base
  have hroom := h.room
  rw [h.next] at hroom
  have hbase := h.base_lt
  have hfresh := f.fresh s.obstack size s.obstack.chunk List.mem_cons_self
  have hdisjoint : s.obstack.objectBase + s.building.length ≤ u.start base ∨
      u.start base + s.building.length ≤ s.obstack.objectBase := by
    obtain hf | hf := hfresh
    · left
      omega
    · right
      omega
  have hmem : (newchunk u f s.obstack length).mem =
      copy (allocate f s.obstack size) (u.start base) s.obstack.objectBase s.building.length := by
    simp only [newchunk, h.objSize]
    exact copyObject_eq _ _ hdisjoint
  have hkeep : ∀ a, a < base ∨ base + size ≤ a → allocate f s.obstack size a = s.obstack.mem a := by
    intro a ha
    have hout : ¬ (f.base s.obstack size ≤ a ∧ a < f.base s.obstack size + size) := by omega
    simp [allocate, hout]
  rw [hmem]
  constructor
  · intro a ha
    have hsame := hkeep a ha
    obtain ha | ha := ha
    · rw [copy_of_lt (by omega), hsame]
    · rw [copy_of_ge (by omega), hsame]
  · rw [read_copy]
    refine Eq.trans (read_congr ?_) h.built
    intro a hlo hhi
    apply hkeep
    omega

lemma Inv.newchunk (length : ℕ) :
    (∃ top' below', Inv u { s with obstack := newchunk u f s.obstack length } top' below') ∧
      (newchunk u f s.obstack length).nextFree + length ≤
        (newchunk u f s.obstack length).chunk.limit := by
  obtain ⟨hkeep, hbuilt⟩ := newchunk_mem (f := f) h length
  have hsize := le_newSize u s.obstack length
  rw [h.objSize] at hsize
  have hstart := u.start_le (f.base s.obstack (newSize u s.obstack length))
  have hfresh := f.fresh s.obstack (newSize u s.obstack length)
  have hnext : (Obstacks.newchunk u f s.obstack length).nextFree =
      (Obstacks.newchunk u f s.obstack length).objectBase + s.building.length := by
    simp only [Obstacks.newchunk, h.objSize]
  have hroom : (Obstacks.newchunk u f s.obstack length).nextFree + length ≤
      (Obstacks.newchunk u f s.obstack length).chunk.limit := by
    rw [hnext]
    simp only [Obstacks.newchunk]
    omega
  have hbytes : ∀ x ∈ s.live,
      read (Obstacks.newchunk u f s.obstack length).mem x.addr x.bytes.length = x.bytes := by
    intro x hx
    obtain ⟨c, hc, hlo, hhi⟩ := h.inside hx
    have hlt := u.lt_start c.base
    unfold Object.stop at hhi
    refine Eq.trans (read_congr ?_) (h.bytes x hx)
    intro a ha ha'
    apply hkeep
    obtain hd | hd := hfresh c hc <;> omega
  refine ⟨?_, hroom⟩
  by_cases hrelease : ¬ s.obstack.maybeEmptyObject = true ∧
      s.obstack.objectBase = u.start s.obstack.chunk.base
  · -- the chunk holds nothing but the object that was moved
    have hpacked := h.packed
    rw [← hrelease.2] at hpacked
    have htop : top = [] := hpacked.eq_nil (h.flagged (Bool.not_eq_true _ ▸ hrelease.1))
    have hprev : (Obstacks.newchunk u f s.obstack length).prev = s.obstack.prev := by
      simp [Obstacks.newchunk, hrelease]
    refine ⟨[], below, ?_⟩
    exact
      { live := by simpa [htop] using h.live
        prev := by rw [hprev, h.prev]
        limit := rfl
        next := hnext
        room := by
          dsimp only
          omega
        packed := le_rfl
        stacked := h.stacked
        disjoint := by
          rw [Obstack.chunks, hprev, List.pairwise_cons]
          refine ⟨?_, (List.pairwise_cons.mp h.disjoint).2⟩
          intro c hc
          exact (hfresh c (List.mem_cons_of_mem _ hc)).symm
        flagged := by simp
        bytes := hbytes
        built := hbuilt }
  have hprev : (Obstacks.newchunk u f s.obstack length).prev = s.obstack.chunks := by
    simp only [Obstacks.newchunk, if_neg hrelease, Obstack.chunks]
  have hheld : Packed (u.start s.obstack.chunk.base) s.obstack.chunk.limit top := by
    have hlimit := h.room
    rw [h.next] at hlimit
    exact h.packed.mono (by omega)
  refine ⟨[], ⟨s.obstack.chunk, top⟩ :: below, ?_⟩
  exact
    { live := by simpa using h.live
      prev := by simp [hprev, Obstack.chunks, h.prev]
      limit := rfl
      next := hnext
      room := by
        dsimp only
        omega
      packed := le_rfl
      stacked := by
        intro x hx
        obtain rfl | hx := List.mem_cons.mp hx
        · exact hheld
        · exact h.stacked x hx
      disjoint := by
        rw [Obstack.chunks, hprev, List.pairwise_cons]
        exact ⟨fun c hc => (hfresh c hc).symm, h.disjoint⟩
      flagged := by simp
      bytes := hbytes
      built := hbuilt }

/-! ## The other operations -/

lemma Inv.extend {bytes : List UInt8}
    (hroom : s.obstack.nextFree + bytes.length ≤ s.obstack.chunk.limit) : Inv u { s with
      obstack := { s.obstack with
        mem := write s.obstack.mem s.obstack.nextFree bytes
        nextFree := s.obstack.nextFree + bytes.length }
      building := s.building ++ bytes } top below where
  live := h.live
  prev := h.prev
  limit := h.limit
  next := by
    have := h.next
    simp
    omega
  room := hroom
  packed := h.packed
  stacked := h.stacked
  disjoint := h.disjoint
  flagged := h.flagged
  bytes := by
    intro x hx
    have hnext := h.next
    refine Eq.trans (read_write_of_disjoint ?_) (h.bytes x hx)
    have hout := h.outside hx
    unfold Object.stop at hout
    omega
  built := by
    have hnext := h.next
    dsimp only
    rw [List.length_append, read_add, ← hnext, read_write]
    rw [read_write_of_disjoint (by omega), h.built]

lemma Inv.ensure (length : ℕ) (c : Prop) [Decidable c]
    (hc : ¬ c → s.obstack.nextFree + length ≤ s.obstack.chunk.limit) :
    ∃ h', (if c then Obstacks.newchunk u f s.obstack length else s.obstack) = h' ∧
      (∃ top' below', Inv u { s with obstack := h' } top' below') ∧
      h'.nextFree + length ≤ h'.chunk.limit := by
  split_ifs with htest
  · exact ⟨_, rfl, h.newchunk length⟩
  · exact ⟨_, rfl, ⟨top, below, h⟩, hc htest⟩

lemma Inv.grow (bytes : List UInt8) : ∃ top' below', Inv u { s with
      obstack := Obstacks.grow u f s.obstack bytes, building := s.building ++ bytes } top' below' := by
  have hlimit := h.limit
  obtain ⟨h', he, ⟨top', below', hinv⟩, hroom⟩ := h.ensure (f := f) bytes.length
    (s.obstack.nextFree + bytes.length > s.obstack.chunkLimit) (by omega)
  refine ⟨top', below', ?_⟩
  simp only [Obstacks.grow, he]
  exact hinv.extend hroom

lemma Inv.blank (length : ℕ) : ∃ top' below', Inv u { s with
      obstack := Obstacks.blank u f s.obstack length
      building := s.building ++ read (Obstacks.blank u f s.obstack length).mem
        ((Obstacks.blank u f s.obstack length).nextFree - length) length } top' below' := by
  have hlimit := h.limit
  obtain ⟨h', he, ⟨top', below', hinv⟩, hroom⟩ := h.ensure (f := f) length
    ((s.obstack.chunkLimit : ℤ) - s.obstack.nextFree < length) (by omega)
  refine ⟨top', below', ?_⟩
  have hfits : h'.nextFree + (read h'.mem h'.nextFree length).length ≤ h'.chunk.limit := by
    simpa using hroom
  have hextend := hinv.extend hfits
  simp only [Obstacks.blank, he, Nat.add_sub_cancel]
  simpa only [write_read_self, length_read] using hextend

lemma Inv.finish : Inv u ⟨(Obstacks.finish u s.obstack).1,
      ⟨(Obstacks.finish u s.obstack).2, s.building⟩ :: s.live, []⟩
      (⟨s.obstack.objectBase, s.building⟩ :: top) below := by
  have halign := le_ptrAlign s.obstack.nextFree u.alignmentMask
  have hnext := h.next
  have hroom := h.room
  have hlimit := h.limit
  have hbase := h.base_lt
  have hstop : s.obstack.nextFree ≤ (Obstacks.finish u s.obstack).1.nextFree ∧
      (Obstacks.finish u s.obstack).1.nextFree ≤ s.obstack.chunk.limit := by
    simp only [Obstacks.finish]
    split_ifs <;> omega
  exact
    { live := by simp [h.live, Obstacks.finish]
      prev := h.prev
      limit := h.limit
      next := rfl
      room := hstop.2
      packed := by
        refine ⟨?_, h.packed⟩
        have hsame : (Obstacks.finish u s.obstack).1.objectBase =
            (Obstacks.finish u s.obstack).1.nextFree := rfl
        unfold Object.stop
        dsimp only
        omega
      stacked := h.stacked
      disjoint := h.disjoint
      flagged := by
        intro hflag x hx
        simp only [Obstacks.finish, Bool.or_eq_false_iff, decide_eq_false_iff_not] at hflag
        obtain rfl | hx := List.mem_cons.mp hx
        · intro hnil
          have hlen : s.building.length = 0 := by simpa using hnil
          omega
        · exact h.flagged hflag.1 x hx
      bytes := by
        intro x hx
        obtain rfl | hx := List.mem_cons.mp hx
        · exact h.built
        · exact h.bytes x hx
      built := rfl }

end

/-! ## Freeing an object -/

lemma held_split (held : List Held) (h : held.flatMap Held.objects = newer ++ x :: older) :
    ∃ above y below newer' older', held = above ++ y :: below ∧
      y.objects = newer' ++ x :: older' ∧ older = older' ++ below.flatMap Held.objects := by
  induction held generalizing newer with
  | nil => simp at h
  | cons y held ih =>
    obtain ⟨w, hw, hrest⟩ | ⟨w, hw, hrest⟩ := List.append_eq_append_iff.mp h
    · obtain ⟨above, z, below, newer', older', rfl, hz, hold⟩ := ih hrest
      exact ⟨y :: above, z, below, newer', older', rfl, hz, hold⟩
    cases w with
    | nil =>
      rw [← List.nil_append (x :: older)] at hrest
      obtain ⟨above, z, below, newer', older', rfl, hz, hold⟩ := ih hrest.symm
      exact ⟨y :: above, z, below, newer', older', rfl, hz, hold⟩
    | cons z w =>
      obtain ⟨rfl, hold⟩ := List.cons.inj hrest
      exact ⟨[], y, held, newer, w, rfl, hw, hold⟩

lemma release_eq {above : List Chunk} {c : Chunk} {below : List Chunk} {addr : ℕ}
    (hdisjoint : (above ++ c :: below).Pairwise Disjoint) (hlo : u.start c.base ≤ addr)
    (hhi : addr ≤ c.limit) (flag : Bool) :
    release addr (above ++ c :: below) flag = (c :: below, flag || !above.isEmpty) := by
  induction above generalizing flag with
  | nil =>
    have hstart := u.lt_start c.base
    have hstay : ¬ (c.base ≥ addr ∨ c.limit < addr) := by omega
    simp [release, hstay]
  | cons d above ih =>
    rw [List.cons_append, List.pairwise_cons] at hdisjoint
    have hpass := passed_over (u := u) (hdisjoint.1 c (by simp)) hlo hhi
    simp [release, hpass, ih hdisjoint.2]

lemma free_eq {h : Obstack} {above : List Chunk} {c : Chunk} {below : List Chunk} {addr : ℕ}
    (hchunks : h.chunks = above ++ c :: below) (hdisjoint : h.chunks.Pairwise Disjoint)
    (hlimit : h.chunkLimit = h.chunk.limit) (hlo : u.start c.base ≤ addr) (hhi : addr ≤ c.limit) :
    Obstacks.free h addr = some { h with
      chunk := c
      prev := below
      objectBase := addr
      nextFree := addr
      chunkLimit := c.limit
      maybeEmptyObject := h.maybeEmptyObject || !above.isEmpty } := by
  have hfunction : freeFunction h addr = some { h with
      chunk := c
      prev := below
      objectBase := addr
      nextFree := addr
      chunkLimit := c.limit
      maybeEmptyObject := h.maybeEmptyObject || !above.isEmpty } := by
    unfold freeFunction
    rw [hchunks] at hdisjoint ⊢
    rw [release_eq (u := u) hdisjoint hlo hhi]
  unfold Obstacks.free
  split_ifs with hfast
  · cases above with
    | nil =>
      obtain ⟨rfl, rfl⟩ := List.cons.inj hchunks
      simp [hlimit]
    | cons d above =>
      obtain ⟨rfl, hprev⟩ := List.cons.inj hchunks
      rw [hchunks, List.cons_append, List.pairwise_cons] at hdisjoint
      obtain hpass | hpass := passed_over (u := u) (hdisjoint.1 c (by simp)) hlo hhi <;> omega
  · rw [hfunction]

lemma Inv.free (h : Inv u s top below) {newer older : List Object} {x : Object}
    (hx : s.live = newer ++ x :: older) : ∃ h', Obstacks.free s.obstack x.addr = some h' ∧
      ∃ top' below', Inv u ⟨h', older, []⟩ top' below' := by
  have hlive : (⟨s.obstack.chunk, top⟩ :: below : List Held).flatMap Held.objects =
      newer ++ x :: older := by
    simp [← h.live, hx]
  obtain ⟨above, y, below', newer', older', hheld, hy, hold⟩ := held_split _ hlive
  have hchunks : s.obstack.chunks = above.map Held.chunk ++ y.chunk :: below'.map Held.chunk := by
    have := congrArg (List.map Held.chunk) hheld
    rwa [List.map_cons, ← h.prev, List.map_append, List.map_cons] at this
  -- the object lies in its chunk, below the object being built if that is the current one
  have hpacked : Packed (u.start y.chunk.base) y.chunk.limit y.objects := by
    have hmem : y ∈ (⟨s.obstack.chunk, top⟩ :: below : List Held) := by simp [hheld]
    obtain rfl | hmem := List.mem_cons.mp hmem
    · have hroom := h.room
      rw [h.next] at hroom
      exact h.packed.mono (by dsimp only; omega)
    · exact h.stacked y hmem
  rw [hy] at hpacked
  obtain ⟨hlo, hhi⟩ := hpacked.mem (x := x) (by simp)
  have hin : x.addr ≤ y.chunk.limit := by
    unfold Object.stop at hhi
    omega
  refine ⟨_, free_eq hchunks h.disjoint h.limit hlo hin, older', below', ?_⟩
  have hsub : (y.chunk :: below'.map Held.chunk).Sublist s.obstack.chunks := by
    rw [hchunks]
    exact List.sublist_append_right _ _
  have hbelow : below' ⊆ below := by
    cases above with
    | nil =>
      obtain ⟨-, rfl⟩ := List.cons.inj hheld
      exact List.Subset.refl _
    | cons a above =>
      obtain ⟨-, rfl⟩ := List.cons.inj hheld
      intro z hz
      simp [hz]
  exact
    { live := hold
      prev := rfl
      limit := rfl
      next := rfl
      room := hin
      packed := hpacked.older
      stacked := fun z hz => h.stacked z (hbelow hz)
      disjoint := h.disjoint.sublist hsub
      flagged := by
        intro hflag z hz
        cases above with
        | nil =>
          obtain ⟨rfl, -⟩ := List.cons.inj hheld
          have hclear : s.obstack.maybeEmptyObject = false := by simpa using hflag
          have htop : top = newer' ++ x :: older' := hy
          apply h.flagged hclear z
          rw [htop]
          exact List.mem_append_right _ (List.mem_cons_of_mem _ hz)
        | cons a above => simp at hflag
      bytes := by
        intro z hz
        apply h.bytes z
        rw [hx]
        exact List.mem_append_right _ (List.mem_cons_of_mem _ hz)
      built := rfl }

end

/-! ## Runs -/

section
variable {u : Setup} {f : Chunkfun} {s : State}

lemma Inv.perform (h : Inv u s top below) (op : Op) :
    ∃ s', s.perform u f op = some s' ∧ ∃ top' below', Inv u s' top' below' := by
  cases op with
  | grow bytes => exact ⟨_, rfl, h.grow bytes⟩
  | grow1 datum => exact ⟨_, rfl, h.grow [datum]⟩
  | blank length => exact ⟨_, rfl, h.blank length⟩
  | finish => exact ⟨_, rfl, _, below, h.finish⟩
  | free index =>
    cases hdrop : s.live.drop index with
    | nil => exact ⟨s, by simp only [State.perform, hdrop], top, below, h⟩
    | cons x older =>
      have hx : s.live = s.live.take index ++ x :: older := by
        simp [← hdrop]
      obtain ⟨h', hfree, hinv⟩ := h.free hx
      refine ⟨⟨h', older, []⟩, ?_, hinv⟩
      simp [State.perform, hdrop, hfree]

lemma Inv.run (h : Inv u s top below) (ops : List Op) :
    ∃ s', ops.foldlM (State.perform u f) s = some s' ∧ ∃ top' below', Inv u s' top' below' := by
  induction ops generalizing s top below with
  | nil => exact ⟨s, rfl, top, below, h⟩
  | cons op ops ih =>
    obtain ⟨s', hs', top', below', h'⟩ := h.perform (f := f) op
    obtain ⟨s'', hs'', hend⟩ := ih h'
    refine ⟨s'', ?_, hend⟩
    rwa [List.foldlM_cons, hs']

/-- The place where the first object begins is not behind the first chunk. The size that
`_obstack_begin` asks for does not see to it, as that of `_obstack_newchunk` does. -/
def First.Roomy (u : Setup) (first : First) : Prop :=
  u.start first.base ≤ first.base + u.chunkSize

instance (u : Setup) (first : First) : Decidable (first.Roomy u) := inferInstanceAs (Decidable (_ ≤ _))

lemma inv_start {first : First} (h : first.Roomy u) : Inv u (.start u first) [] [] where
  live := rfl
  prev := rfl
  limit := rfl
  next := rfl
  room := h
  packed := le_rfl
  stacked := by simp [Stacked]
  disjoint := List.pairwise_singleton _ _
  flagged := by simp
  bytes := by simp [State.start]
  built := rfl

structure Sound (u : Setup) (s : State) : Prop where
  /-- The object being built is exactly the bytes added to it. -/
  built : s.obstack.nextFree = s.obstack.objectBase + s.building.length ∧
    read s.obstack.mem s.obstack.objectBase s.building.length = s.building
  /-- Live objects have their bytes at their addresses. -/
  bytes : ∀ x ∈ s.live, read s.obstack.mem x.addr x.bytes.length = x.bytes
  /-- They do not overlap each other or the object being built. -/
  disjoint : (⟨s.obstack.objectBase, s.building⟩ :: s.live).Pairwise fun x y =>
    y.stop ≤ x.addr ∨ x.stop ≤ y.addr
  /-- They lie in chunks that have not been released. -/
  inside : ∀ x ∈ s.live, ∃ c ∈ s.obstack.chunks, c.base + u.header ≤ x.addr ∧ x.stop ≤ c.limit

lemma held_pairwise (hdisjoint : (held.map Held.chunk).Pairwise Disjoint)
    (hpacked : Stacked u held) :
    (held.flatMap Held.objects).Pairwise fun x y => y.stop ≤ x.addr ∨ x.stop ≤ y.addr := by
  rw [List.pairwise_flatMap]
  constructor
  · intro y hy
    exact (hpacked y hy).pairwise.imp fun h => .inl h
  · rw [List.pairwise_map] at hdisjoint
    apply hdisjoint.imp_of_mem
    intro c d hc hd hcd x hx y hy
    obtain ⟨hxlo, hxhi⟩ := (hpacked c hc).mem hx
    obtain ⟨hylo, hyhi⟩ := (hpacked d hd).mem hy
    have hstartc := u.lt_start c.chunk.base
    have hstartd := u.lt_start d.chunk.base
    obtain hcd | hcd := hcd
    · right
      omega
    · left
      omega

lemma Inv.sound (h : Inv u s top below) : Sound u s where
  built := ⟨h.next, h.built⟩
  bytes := h.bytes
  disjoint := by
    -- the object being built is one more object of the current chunk
    have hall : ⟨s.obstack.objectBase, s.building⟩ :: s.live =
        (⟨s.obstack.chunk, ⟨s.obstack.objectBase, s.building⟩ :: top⟩ :: below : List Held).flatMap
          Held.objects := by
      simp [h.live]
    rw [hall]
    apply held_pairwise (u := u)
    · rw [List.map_cons, ← h.prev]
      exact h.disjoint
    intro y hy
    obtain rfl | hy := List.mem_cons.mp hy
    · have hroom := h.room
      rw [h.next] at hroom
      exact ⟨hroom, h.packed⟩
    · exact h.stacked y hy
  inside := by
    intro x hx
    obtain ⟨c, hc, hlo, hhi⟩ := h.inside hx
    have hstart := le_ptrAlign (c.base + u.header) u.alignmentMask
    exact ⟨c, hc, hstart.trans hlo, hhi⟩

/-- An obstack is a stack of byte strings: after every run of operations the
object being built has exactly the bytes added to it, and the live objects have
their bytes where they were finished, apart from each other and in chunks that
have not been released, if the first chunk has room. -/
theorem stack_of_objects (u : Setup) (first : First) (f : Chunkfun) :
    (∀ ops : List Op, ∃ s, ops.foldlM (State.perform u f) (.start u first) = some s ∧ Sound u s) ↔
      first.Roomy u := by
  constructor
  · -- an empty object is finished where the first one begins
    intro h
    obtain ⟨s, hs, hsound⟩ := h [.finish]
    obtain rfl : _ = s := Option.some.inj hs
    obtain ⟨c, hc, -, hstop⟩ := hsound.inside ⟨u.start first.base, []⟩ (by simp [State.start, begin])
    obtain rfl : c = ⟨first.base, first.base + u.chunkSize⟩ := by
      simpa [State.start, finish, begin, Obstack.chunks] using hc
    exact hstop
  · intro h ops
    obtain ⟨s, hs, top, below, hinv⟩ := (inv_start h).run (f := f) ops
    exact ⟨s, hs, hinv.sound⟩

/-- Blocks of zeros, each behind all chunks in use. -/
def ascending : Chunkfun where
  base h _ := (h.chunks.map Chunk.limit).foldr max 0
  fill _ _ _ := 0
  fresh _ _ _ hc := .inl (List.le_max_of_le' 0 (List.mem_map_of_mem hc) le_rfl)

/-- A first block of zeros at a multiple of 64. -/
def zeros : First := ⟨64, fun _ => 0⟩

def ordinary : Setup := ⟨64, 15, 16, by decide, by decide⟩

theorem stack_of_objects_ordinary :
    ∃ s, [Op.grow [1, 2], Op.finish, Op.free 0].foldlM (State.perform ordinary ascending)
      (.start ordinary zeros) = some s ∧ Sound ordinary s :=
  (stack_of_objects ordinary zeros ascending).mpr (by decide) _

/-- Chunks of 48 bytes, and objects aligned to 64 bytes. -/
def tight : Setup := ⟨48, 63, 16, by decide, by decide⟩

/-- The first object is finished behind the first chunk, and `obstack_free` of it aborts. -/
theorem first_object_outside :
    [Op.finish, Op.free 0].foldlM (State.perform tight ascending) (.start tight zeros) = none ∧
      ¬ ∃ s, [Op.finish].foldlM (State.perform tight ascending) (.start tight zeros) = some s ∧
        Sound tight s := by
  refine ⟨rfl, ?_⟩
  rintro ⟨s, hs, hsound⟩
  obtain rfl : _ = s := Option.some.inj hs
  obtain ⟨c, hc, -, hstop⟩ := hsound.inside ⟨128, []⟩ List.mem_cons_self
  obtain rfl : c = ⟨64, 112⟩ := List.mem_singleton.mp hc
  exact absurd hstop (by decide)

end

end Eglibc.Obstacks
