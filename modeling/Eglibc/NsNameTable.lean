import Eglibc.NsName

/-!
# A failed `ns_name_pack` leaves the compression table as it was

Nothing is used of the search for a name to point to, so `dn_find` may answer anything.
-/
namespace Eglibc.NsName
open Checked

def PackCall.bodyWith (c : PackCall) (search : UInt8 → Packing → Run (Option ℕ)) (p : Packing) :
    Run (Packing ⊕ Packed) := do
  let n ← load c.src p.srcp
  match ← search n p with
  | some l => .ok (.inr (← c.writePointer l p))
  | none => c.copyLabel n (← c.save n p)

/-- `ns_name_pack` with any search in the place of `dn_find`. -/
def nsNamePackWith (search : PackCall → UInt8 → Packing → Run (Option ℕ)) (src buf : List UInt8)
    (dst dstsiz : ℕ) (dnptrs : List (Option ℕ)) (lastdnptr : Option ℕ) : Run Packed := do
  let lpp ← searchEnd dnptrs
  let ok ← legal src
  if ok then
    let c : PackCall := ⟨src, dst, dst + dstsiz, lpp, lastdnptr⟩
    iterate (c.bodyWith (search c)) (maxCdName + 1) ⟨0, dst, lpp.getD 0, true, buf, dnptrs⟩
  else .ok ⟨none, buf, dnptrs⟩

/-- The function of the source is the one that searches with `dn_find`. -/
lemma nsNamePack_eq : nsNamePack = nsNamePackWith PackCall.find := rfl

/-- The pointers in front of the terminating `NULL`. -/
def listed (dnptrs : List (Option ℕ)) : List (Option ℕ) := dnptrs.takeWhile Option.isSome

section

variable {dnptrs xs ys : List (Option ℕ)} {c : PackCall} {p p' : Packing} {r : Packed} {n : UInt8} {l : ℕ}

lemma eq_set_of_store {v : Option ℕ} (h : store xs l v = .ok ys) : l < xs.length ∧ ys = xs.set l v := by
  unfold store at h
  split_ifs at h with hl
  cases h
  exact ⟨hl, rfl⟩

lemma getElem?_of_load {v : Option ℕ} (h : load xs l = .ok v) : xs[l]? = some v := by
  unfold load at h
  split at h <;> simp_all

lemma listed_eq_take (hsome : ∀ i < l, ∃ e, xs[i]? = some (some e)) (hnone : xs[l]? = some none) :
    listed xs = xs.take l := by
  induction xs generalizing l with
  | nil => simp at hnone
  | cons x xs ih =>
    cases l with
    | zero => simp_all [listed]
    | succ l =>
      obtain ⟨e, he⟩ := hsome 0 (by omega)
      obtain rfl : x = some e := by simpa using he
      have htail : listed xs = xs.take l :=
        ih (fun i hi => by simpa using hsome (i + 1) (by omega)) (by simpa using hnone)
      simpa [listed] using htail

lemma listed_of_listEnd (h : listEnd dnptrs = .ok l) (h0 : ∃ e, dnptrs[0]? = some (some e)) :
    (∀ i < l, ∃ e, dnptrs[i]? = some (some e)) ∧ listed dnptrs = dnptrs.take l := by
  refine iterate_ok (I := fun cpp => ∀ i < cpp, ∃ e, dnptrs[i]? = some (some e))
    (Q := fun l => (∀ i < l, ∃ e, dnptrs[i]? = some (some e)) ∧ listed dnptrs = dnptrs.take l)
    ?_ ?_ ?_ h
  · intro cpp cpp' hI hbody
    obtain ⟨e, hload, hbody⟩ := ok_of_bind hbody
    cases e with
    | none => cases hbody
    | some e =>
      cases hbody
      intro i hi
      rcases Nat.lt_succ_iff_lt_or_eq.mp hi with hlt | rfl
      · exact hI i hlt
      · exact ⟨e, getElem?_of_load hload⟩
  · intro cpp l hI hbody
    obtain ⟨e, hload, hbody⟩ := ok_of_bind hbody
    cases e with
    | none =>
      cases hbody
      exact ⟨hI, listed_eq_take hI (getElem?_of_load hload)⟩
    | some e => cases hbody
  · intro i hi
    obtain rfl : i = 0 := by omega
    exact h0

/-- Only slots from the end of the list on have been stored to. -/
def Kept (dnptrs : List (Option ℕ)) (lpp : Option ℕ) (p : Packing) : Prop :=
  match lpp with
  | none => p.dnptrs = dnptrs
  | some l => l ≤ p.cpp ∧ p.dnptrs.take l = dnptrs.take l

lemma Kept.congr {lpp : Option ℕ} (h : Kept dnptrs lpp p) (hd : p'.dnptrs = p.dnptrs)
    (hc : p'.cpp = p.cpp) : Kept dnptrs lpp p' := by
  unfold Kept at h ⊢
  rwa [hd, hc]

lemma Kept.save (h : Kept dnptrs c.lpp p) (hsave : c.save n p = .ok p') : Kept dnptrs c.lpp p' := by
  unfold PackCall.save at hsave
  cases hl : c.lpp with
  | none =>
    rw [hl] at hsave h
    cases hsave
    exact h
  | some l =>
    rw [hl] at hsave h
    cases hlast : c.lastdnptr with
    | none =>
      rw [hlast] at hsave
      cases hsave
      exact h
    | some last =>
      rw [hlast] at hsave
      dsimp only at hsave
      split_ifs at hsave
      · obtain ⟨ys, hys, hsave⟩ := ok_of_bind hsave
        obtain ⟨zs, hzs, hsave⟩ := ok_of_bind hsave
        cases hsave
        obtain ⟨-, rfl⟩ := eq_set_of_store hys
        obtain ⟨-, rfl⟩ := eq_set_of_store hzs
        have hle : l ≤ p.cpp := h.1
        refine ⟨by dsimp only; omega, ?_⟩
        rw [List.take_set_of_le (by omega), List.take_set_of_le hle]
        exact h.2
      · cases hsave
        exact h

lemma cleanup_restores (hlist : ∀ l, c.lpp = some l →
    (∀ i < l, ∃ e, dnptrs[i]? = some (some e)) ∧ listed dnptrs = dnptrs.take l)
    (h : Kept dnptrs c.lpp p) (hr : c.cleanup p = .ok r) : listed r.dnptrs = listed dnptrs := by
  unfold PackCall.cleanup at hr
  cases hl : c.lpp with
  | none =>
    rw [hl] at hr h
    cases hr
    exact congrArg listed h
  | some l =>
    rw [hl] at hr h
    obtain ⟨ys, hys, hr⟩ := ok_of_bind hr
    cases hr
    obtain ⟨hlt, rfl⟩ := eq_set_of_store hys
    obtain ⟨hsome, hlisted⟩ := hlist l hl
    have hsame : ∀ i < l, p.dnptrs[i]? = dnptrs[i]? := by
      intro i hi
      rw [← List.getElem?_take_of_lt hi, h.2, List.getElem?_take_of_lt hi]
    rw [listed_eq_take (fun i hi => ?_) (List.getElem?_set_self hlt), hlisted,
      List.take_set_of_le le_rfl, h.2]
    rw [List.getElem?_set_ne (by omega), hsame i hi]
    exact hsome i hi

/-- One pass behind the search: it goes on with the same table, or fails through the cleanup. -/
def Ends (c : PackCall) (p : Packing) : Packing ⊕ Packed → Prop
  | .inl q => q.dnptrs = p.dnptrs ∧ q.cpp = p.cpp
  | .inr r => r.ret = none → ∃ q, q.dnptrs = p.dnptrs ∧ q.cpp = p.cpp ∧ c.cleanup q = .ok r

lemma writePointer_ends (h : c.writePointer l p = .ok r) : Ends c p (.inr r) := by
  intro hr
  unfold PackCall.writePointer at h
  split_ifs at h
  · exact ⟨p, rfl, rfl, h⟩
  obtain ⟨b1, -, h⟩ := ok_of_bind h
  obtain ⟨b2, -, h⟩ := ok_of_bind h
  cases h
  cases hr

lemma copyLabel_ends {out : Packing ⊕ Packed} (h : c.copyLabel n p = .ok out) : Ends c p out := by
  unfold PackCall.copyLabel at h
  split_ifs at h
  · obtain ⟨r, hr, h⟩ := ok_of_bind h
    cases h
    exact fun _ => ⟨p, rfl, rfl, hr⟩
  obtain ⟨o, -, h⟩ := ok_of_bind h
  cases o with
  | none => cases h
  | some l =>
    dsimp only at h
    by_cases hroom : c.eob ≤ p.dstp + 1 + l
    · rw [if_pos hroom] at h
      obtain ⟨r, hr, h⟩ := ok_of_bind h
      cases h
      exact fun _ => ⟨p, rfl, rfl, hr⟩
    rw [if_neg hroom] at h
    obtain ⟨label, -, h⟩ := ok_of_bind h
    obtain ⟨b, -, h⟩ := ok_of_bind h
    split_ifs at h
    · obtain ⟨r, hr, h⟩ := ok_of_bind h
      cases h
      intro hnone
      unfold PackCall.finish at hr
      split_ifs at hr
      · exact ⟨⟨p.srcp + (l + 1), p.dstp + (l + 1), p.cpp, p.first, b, p.dnptrs⟩, rfl, rfl, hr⟩
      · cases hr
        cases hnone
    · cases h
      exact ⟨rfl, rfl⟩

lemma bodyWith_ends {search : UInt8 → Packing → Run (Option ℕ)} {out : Packing ⊕ Packed}
    (h : c.bodyWith search p = .ok out) : ∃ q, (q = p ∨ ∃ n, c.save n p = .ok q) ∧ Ends c q out := by
  obtain ⟨n, -, h⟩ := ok_of_bind h
  obtain ⟨found, -, h⟩ := ok_of_bind h
  cases found with
  | some l =>
    obtain ⟨r, hr, h⟩ := ok_of_bind h
    cases h
    exact ⟨p, .inl rfl, writePointer_ends hr⟩
  | none =>
    obtain ⟨q, hq, h⟩ := ok_of_bind h
    exact ⟨q, .inr ⟨n, hq⟩, copyLabel_ends h⟩

lemma packLoop_restores {search : UInt8 → Packing → Run (Option ℕ)} {budget : ℕ}
    (hlist : ∀ l, c.lpp = some l →
      (∀ i < l, ∃ e, dnptrs[i]? = some (some e)) ∧ listed dnptrs = dnptrs.take l)
    (hp : Kept dnptrs c.lpp p) (h : iterate (c.bodyWith search) budget p = .ok r) (hr : r.ret = none) :
    listed r.dnptrs = listed dnptrs := by
  have hpass : ∀ {p out}, Kept dnptrs c.lpp p → c.bodyWith search p = .ok out →
      ∃ q, Kept dnptrs c.lpp q ∧ Ends c q out := by
    intro p out hp hbody
    obtain ⟨q, rfl | ⟨n, hn⟩, hends⟩ := bodyWith_ends hbody
    · exact ⟨q, hp, hends⟩
    · exact ⟨q, hp.save hn, hends⟩
  refine iterate_ok (I := Kept dnptrs c.lpp)
    (Q := fun r => r.ret = none → listed r.dnptrs = listed dnptrs) ?_ ?_ hp h hr
  · intro p p' hp hbody
    obtain ⟨q, hq, hends⟩ := hpass hp hbody
    exact hq.congr hends.1 hends.2
  · intro p r hp hbody hr
    obtain ⟨q, hq, hends⟩ := hpass hp hbody
    obtain ⟨q', hd, hc, hclean⟩ := hends hr
    exact cleanup_restores hlist (hq.congr hd hc) hclean

/-- When `ns_name_pack` fails, the table lists the same pointers as before. -/
theorem nsNamePack_failed_listed (search : PackCall → UInt8 → Packing → Run (Option ℕ))
    (src buf : List UInt8) (dst dstsiz : ℕ) (dnptrs : List (Option ℕ)) (lastdnptr : Option ℕ)
    (r : Packed) (h : nsNamePackWith search src buf dst dstsiz dnptrs lastdnptr = .ok r)
    (hr : r.ret = none) : listed r.dnptrs = listed dnptrs := by
  obtain ⟨lpp, hlpp, h⟩ := ok_of_bind h
  obtain ⟨ok, -, h⟩ := ok_of_bind h
  split_ifs at h
  · refine packLoop_restores (fun l hl => ?_) ?_ h hr
    · cases hl
      rcases dnptrs with _ | ⟨_ | msg, xs⟩
      · cases hlpp
      · cases hlpp
      · obtain ⟨l', hl', hlpp⟩ := ok_of_bind hlpp
        cases hlpp
        exact listed_of_listEnd hl' ⟨msg, rfl⟩
    · cases lpp with
      | none => rfl
      | some l => exact ⟨le_rfl, rfl⟩
  · cases h
    rfl

/-- The pointer saved for a name that does not fit is taken back. -/
theorem nsNamePack_failed_listed_full :
    ∃ r, nsNamePack [1, 0x61, 0] [0, 0] 0 2 [some 0, none, none, none] (some 4) = .ok r ∧
      r.ret = none ∧ listed r.dnptrs = listed [some 0, none, none, none] := by
  rw [nsNamePack_eq]
  exact ⟨⟨none, [0, 0], [some 0, none, none, none]⟩, rfl, rfl,
    nsNamePack_failed_listed PackCall.find [1, 0x61, 0] [0, 0] 0 2 _ (some 4) _ rfl rfl⟩

end

end Eglibc.NsName
