import Eglibc.Random

/-!
# Switching between generators

A state array is a generator. A program that switches between arrays sees the numbers of
each generator as if it ran alone.
-/
namespace Eglibc.Random
open Checked BigEndian

variable {buf : RandomData} {m : Memory} {n a : ℕ} {e : Entry}

inductive Poly
  | one | two | three | four
  deriving DecidableEq

def Poly.code : Poly → ℕ
  | one => 1
  | two => 2
  | three => 3
  | four => 4

def Poly.degree : Poly → ℕ
  | one => 7
  | two => 15
  | three => 31
  | four => 63

def Poly.separation : Poly → ℕ
  | one => 3
  | two => 1
  | three => 3
  | four => 1

lemma Poly.tables (p : Poly) : p.code ≠ 0 ∧ p.code < maxTypes ∧
    degrees.getD p.code 0 = p.degree ∧ seps.getD p.code 0 = p.separation ∧
    0 < p.separation ∧ p.separation < p.degree := by
  cases p <;> decide

structure Feedback where
  poly : Poly
  table : List ℤ
  rear : ℕ
  length_table : table.length = poly.degree
  rear_lt : rear < poly.degree

namespace Feedback
variable (f : Feedback)

def front : ℕ := (f.rear + f.poly.separation) % f.poly.degree

def sum : ℤ := signed 32 (f.table.getD f.front 0 + f.table.getD f.rear 0)

def next : Feedback where
  poly := f.poly
  table := f.table.set f.front f.sum
  rear := (f.rear + 1) % f.poly.degree
  length_table := by simp [f.length_table]
  rear_lt := Nat.mod_lt _ (Nat.lt_of_le_of_lt (Nat.zero_le _) f.rear_lt)

end Feedback

inductive Gen
  | linear (x : ℤ)
  | feedback (f : Feedback)

def Gen.output : Gen → ℤ
  | linear x => congruential x
  | feedback f => f.sum / 2 % 2 ^ 31

def Gen.next : Gen → Gen
  | linear x => linear (congruential x)
  | feedback f => feedback f.next

def seedTable : ℕ → ℤ → List ℤ
  | 0, _ => []
  | n + 1, word => word :: seedTable n (lehmer word)

lemma length_seedTable (n : ℕ) (word : ℤ) : (seedTable n word).length = n := by
  induction n generalizing word with
  | zero => rfl
  | succ n ih => rw [seedTable, List.length_cons, ih]

def Feedback.seeded (p : Poly) (seed : UInt32) : Feedback where
  poly := p
  table := seedTable p.degree (seedWord seed)
  rear := 0
  length_table := length_seedTable _ _
  rear_lt := Nat.lt_of_le_of_lt (Nat.zero_le _) p.tables.2.2.2.2.2

def polyFor (n : ℕ) : Option Poly :=
  if 128 ≤ n then some (if n < 256 then .three else .four)
  else if n < 32 then none
  else some (if n < 64 then .one else .two)

def Gen.seeded (seed : UInt32) (n : ℕ) : Gen :=
  match polyFor n with
  | none => .linear (seedWord seed)
  | some p => Gen.next^[p.degree * 10] (.feedback (Feedback.seeded p seed))

def element (seed : UInt32) (n k : ℕ) : ℤ := (Gen.next^[k] (Gen.seeded seed n)).output

def Gen.table : Gen → List ℤ
  | linear x => [x]
  | feedback f => f.table

def Gen.info : Gen → ℤ
  | linear _ => 0
  | feedback f => maxTypes * f.rear + f.poly.code

/-- The random data are set to a generator in the array `a`. While it is a linear one the
pointers may be left over from another array. -/
def Gen.Aimed (a : ℕ) (buf : RandomData) : Gen → Prop
  | linear _ => buf.state = some ⟨a, 1⟩ ∧ buf.randType = 0
  | feedback f => buf = ⟨⟨a, 1 + f.front⟩, ⟨a, 1 + f.rear⟩, some ⟨a, 1⟩, f.poly.code,
      f.poly.degree, f.poly.separation, ⟨a, 1 + f.poly.degree⟩⟩

def Gen.Kept (words : List ℤ) (g : Gen) : Prop :=
  ∃ info junk, words = info :: (g.table ++ junk)

def Gen.Saved (words : List ℤ) (g : Gen) : Prop :=
  ∃ junk, words = g.info :: (g.table ++ junk)

def Writes (a : ℕ) (m m' : Memory) : Prop :=
  (∀ b, b ≠ a → m' b = m b) ∧ (m' a).length = (m a).length

section
variable {m m' m'' : Memory} {a i : ℕ} {info v : ℤ} {t junk : List ℤ}

lemma Writes.refl (a : ℕ) (m : Memory) : Writes a m m := ⟨fun _ _ => rfl, rfl⟩

lemma Writes.trans (h : Writes a m m') (h' : Writes a m' m'') : Writes a m m'' :=
  ⟨fun b hb => (h'.1 b hb).trans (h.1 b hb), h'.2.trans h.2⟩

lemma writes_update {words : List ℤ} (h : words.length = (m a).length) :
    Writes a m (Function.update m a words) :=
  ⟨fun _ hb => Function.update_of_ne hb _ _, by rw [Function.update_self, h]⟩

lemma Writes.length (h : Writes a m m') (b : ℕ) : (m' b).length = (m b).length := by
  by_cases hb : b = a
  · rw [hb, h.2]
  · rw [h.1 b hb]

lemma loadWord_table (hm : m a = info :: (t ++ junk)) (hi : i < t.length) :
    loadWord m ⟨a, 1 + i⟩ = .ok (t.getD i 0) := by
  rw [loadWord, hm, load_eq 0 (by simp; omega), Nat.add_comm]
  simp [List.getElem?_append_left hi]

lemma storeWord_table (hm : m a = info :: (t ++ junk)) (hi : i < t.length) (v : ℤ) :
    storeWord m ⟨a, 1 + i⟩ v = .ok (Function.update m a (info :: (t.set i v ++ junk))) := by
  rw [storeWord, hm, store_eq (by simp; omega), ok_bind, Nat.add_comm]
  simp [List.set_append_left _ _ hi]

lemma storeWord_info (hm : m a = info :: t) (v : ℤ) :
    storeWord m (Ptr.info ⟨a, 1⟩) v = .ok (Function.update m a (v :: t)) := by
  simp [storeWord, Ptr.info, hm, store]

end

section
variable {g : Gen} {s : Machine} {a : ℕ}

lemma Feedback.front_lt (f : Feedback) : f.front < f.poly.degree :=
  Nat.mod_lt _ (Nat.lt_of_le_of_lt (Nat.zero_le _) f.rear_lt)

lemma Gen.Aimed.state (h : g.Aimed a buf) : buf.state = some ⟨a, 1⟩ := by
  cases g with
  | linear x => exact h.1
  | feedback f => rw [show buf = _ from h]

theorem Feedback.next_places (f : Feedback) :
    f.poly.degree ≤ f.front + 1 ∧ f.next.front = 0 ∧ f.next.rear = f.rear + 1 ∨
    f.front + 1 < f.poly.degree ∧ f.next.front = f.front + 1 ∧
      (f.poly.degree ≤ f.rear + 1 ∧ f.next.rear = 0 ∨
        f.rear + 1 < f.poly.degree ∧ f.next.rear = f.rear + 1) := by
  obtain ⟨p, t, rear, ht, hr⟩ := f
  cases p <;> simp only [Feedback.front, Feedback.next, Poly.degree, Poly.separation] at hr ⊢ <;>
    omega

lemma Gen.Aimed.advance {f : Feedback} (h : (Gen.feedback f).Aimed a buf) :
    (Gen.feedback f.next).Aimed a (Random.advance buf ⟨a, 1⟩) := by
  rw [show buf = _ from h]
  obtain ⟨hf, hf', hr'⟩ | ⟨hf, hf', ⟨hr, hr'⟩ | ⟨hr, hr'⟩⟩ := f.next_places
  · have h₁ : 1 + f.poly.degree ≤ 1 + f.front + 1 := by omega
    apply (if_pos h₁).trans
    rw [hf', hr']
    rfl
  · have h₁ : ¬1 + f.poly.degree ≤ 1 + f.front + 1 := by omega
    have h₂ : 1 + f.poly.degree ≤ 1 + f.rear + 1 := by omega
    apply ((if_neg h₁).trans (if_pos h₂)).trans
    rw [hf', hr']
    rfl
  · have h₁ : ¬1 + f.poly.degree ≤ 1 + f.front + 1 := by omega
    have h₂ : ¬1 + f.poly.degree ≤ 1 + f.rear + 1 := by omega
    apply ((if_neg h₁).trans (if_neg h₂)).trans
    rw [hf', hr']
    rfl

lemma randomR_returns (hb : g.Aimed a s.buf) (hk : g.Kept (s.memory a)) :
    Returns (randomR s) fun r => r.2 = g.output ∧ g.next.Aimed a r.1.buf ∧
      g.next.Kept (r.1.memory a) ∧ Writes a s.memory r.1.memory := by
  obtain ⟨info, junk, hm⟩ := hk
  rw [randomR, hb.state]
  cases g with
  | linear x =>
    have hx : (0 : ℕ) < [x].length := by simp
    dsimp only [Gen.table] at hm ⊢
    rw [if_pos hb.2, loadWord_table hm hx, ok_bind, storeWord_table hm hx, ok_bind]
    apply returns_ok
    exact ⟨rfl, hb, ⟨info, junk, by simp [Gen.table, Gen.next]⟩, writes_update (by simp [hm])⟩
  | feedback f =>
    obtain ⟨hcode, -⟩ := f.poly.tables
    have hbuf : s.buf = _ := hb
    have hfront : f.front < f.table.length := by
      rw [f.length_table]
      exact f.front_lt
    have hrear : f.rear < f.table.length := by
      rw [f.length_table]
      exact f.rear_lt
    have hadv := hb.advance
    rw [hbuf] at hadv
    dsimp only [Gen.table] at hm ⊢
    rw [hbuf]
    rw [if_neg hcode, loadWord_table hm hfront, ok_bind, loadWord_table hm hrear, ok_bind,
      storeWord_table hm hfront, ok_bind, ensure, if_pos ⟨rfl, rfl⟩]
    apply returns_ok
    exact ⟨rfl, hadv, ⟨info, junk, by simp [Gen.table, Gen.next, Feedback.next, Feedback.sum]⟩,
      writes_update (by simp [hm])⟩

lemma discard_returns (n : ℕ) (hb : g.Aimed a s.buf) (hk : g.Kept (s.memory a)) :
    Returns (discard n s) fun s' => (Gen.next^[n] g).Aimed a s'.buf ∧
      (Gen.next^[n] g).Kept (s'.memory a) ∧ Writes a s.memory s'.memory := by
  induction n generalizing g s with
  | zero => exact returns_ok ⟨hb, hk, Writes.refl _ _⟩
  | succ n ih =>
    apply (randomR_returns hb hk).bind
    intro r hr
    apply (ih hr.2.1 hr.2.2.1).mono
    intro s' h
    exact ⟨h.1, h.2.1, hr.2.2.2.trans h.2.2⟩

theorem fillTable_eq {info word : ℤ} {x y junk : List ℤ}
    (hm : m a = info :: (x ++ word :: y ++ junk)) (hn : y.length = n) :
    Returns (fillTable n m ⟨a, 1 + x.length⟩ word) fun m' =>
      m' a = info :: (x ++ seedTable (n + 1) word ++ junk) ∧ Writes a m m' := by
  induction n generalizing m x y word with
  | zero =>
    rw [List.length_eq_zero_iff.mp hn] at hm
    exact returns_ok ⟨hm, Writes.refl _ _⟩
  | succ n ih =>
    obtain ⟨z, y, rfl⟩ := List.exists_cons_of_length_eq_add_one hn
    have hlt : x.length + 1 < (x ++ word :: z :: y).length := by simp
    have hset : (x ++ word :: z :: y).set (x.length + 1) (lehmer word) =
        (x ++ [word]) ++ lehmer word :: y := by
      simp [List.set_append_right]
    have hw : Writes a m (Function.update m a
        (info :: ((x ++ [word]) ++ lehmer word :: y ++ junk))) := by
      apply writes_update
      simp [hm]
    rw [fillTable, show Ptr.add ⟨a, 1 + x.length⟩ 1 = ⟨a, 1 + (x.length + 1)⟩ from rfl,
      storeWord_table hm hlt, ok_bind, hset]
    have h := ih (x := x ++ [word]) (Function.update_self a
      (info :: ((x ++ [word]) ++ lehmer word :: y ++ junk)) m) (by simpa using hn)
    rw [List.length_append] at h
    apply h.mono
    intro m' h'
    refine ⟨?_, hw.trans h'.2⟩
    rw [h'.1]
    simp [seedTable]

lemma infoWord_aimed (hb : g.Aimed a buf) : infoWord buf.randType buf.rptr ⟨a, 1⟩ = .ok g.info := by
  cases g with
  | linear x => simp [infoWord, hb.2, Gen.info]
  | feedback f =>
    rw [show buf = _ from hb]
    simp [infoWord, Gen.info, f.poly.tables.1]

lemma storeInfo_eq (hk : g.Kept (m a)) :
    Returns (storeWord m (Ptr.info ⟨a, 1⟩) g.info) fun m' => g.Saved (m' a) ∧ Writes a m m' := by
  obtain ⟨info, junk, hm⟩ := hk
  rw [storeWord_info hm]
  apply returns_ok
  exact ⟨⟨junk, by simp⟩, writes_update (by simp [hm])⟩

lemma saveState_returns (hb : g.Aimed a s.buf) (hk : g.Kept (s.memory a)) :
    Returns (saveState s ⟨a, 1⟩) fun s' => s'.buf = s.buf ∧ g.Saved (s'.memory a) ∧
      Writes a s.memory s'.memory := by
  rw [saveState, infoWord_aimed hb, ok_bind]
  apply (storeInfo_eq hk).bind
  intro m hm
  exact returns_ok ⟨rfl, hm⟩

lemma Gen.Saved.kept {words : List ℤ} (h : g.Saved words) : g.Kept words :=
  h.elim fun junk hw => ⟨_, junk, hw⟩

lemma restore_aimed (buf : RandomData) (g : Gen) (a : ℕ) : g.Aimed a (restore buf a g.info) := by
  cases g with
  | linear x => exact ⟨rfl, rfl⟩
  | feedback f =>
    obtain ⟨hcode, hlt, hdeg, hsep, -⟩ := f.poly.tables
    have htype : ((Gen.feedback f).info.tmod maxTypes).toNat = f.poly.code := by
      simp only [Gen.info, maxTypes] at hlt ⊢
      rw [Int.tmod_eq_emod_of_nonneg (by omega)]
      omega
    have hrear : ((Gen.feedback f).info.tdiv maxTypes).toNat = f.rear := by
      simp only [Gen.info, maxTypes] at hlt ⊢
      rw [Int.tdiv_eq_ediv_of_nonneg (by omega)]
      omega
    rw [restore, htype, hrear]
    rw [hdeg, hsep, if_neg hcode]
    rfl

lemma Gen.info_nonneg (g : Gen) : 0 ≤ g.info := by
  cases g with
  | linear x => exact le_rfl
  | feedback f =>
    simp only [Gen.info]
    positivity

def Gen.type : Gen → ℕ
  | linear _ => 0
  | feedback f => f.poly.code

lemma Gen.Aimed.type (h : g.Aimed a buf) : buf.randType = g.type := by
  cases g with
  | linear x => exact h.2
  | feedback f => rw [show buf = _ from h, Gen.type]

@[simp] lemma Gen.type_next (g : Gen) : g.next.type = g.type := by
  cases g <;> rfl

lemma Gen.type_iterate (n : ℕ) (g : Gen) : (Gen.next^[n] g).type = g.type := by
  induction n generalizing g with
  | zero => rfl
  | succ n ih => rw [Function.iterate_succ_apply, ih, Gen.type_next]

lemma srandomR_linear (seed : UInt32) (hstate : s.buf.state = some ⟨a, 1⟩)
    (htype : s.buf.randType = 0) (hlen : 2 ≤ (s.memory a).length) :
    Returns (srandomR seed s) fun r => (Gen.linear (seedWord seed)).Aimed a r.1.buf ∧
      (Gen.linear (seedWord seed)).Kept (r.1.memory a) ∧ Writes a s.memory r.1.memory := by
  obtain ⟨info, t, hm⟩ := List.exists_cons_of_length_pos (Nat.lt_of_lt_of_le Nat.two_pos hlen)
  rw [hm, List.length_cons] at hlen
  obtain ⟨x, junk, rfl⟩ := List.exists_cons_of_length_pos (Nat.le_of_succ_le_succ hlen)
  have hst := storeWord_table (t := [x]) (i := 0) hm (by simp) (seedWord seed)
  rw [srandomR, if_neg (by rw [htype]; decide), hstate]
  dsimp only
  rw [show (⟨a, 1⟩ : Ptr) = ⟨a, 1 + 0⟩ from rfl, hst, ok_bind, if_pos htype]
  apply returns_ok
  exact ⟨⟨hstate, htype⟩, ⟨info, junk, by simp [Gen.table]⟩, writes_update (by simp [hm])⟩

lemma srandomR_feedback (seed : UInt32) (p : Poly)
    (hbuf : buf = ⟨buf.fptr, buf.rptr, some ⟨a, 1⟩, p.code, p.degree, p.separation,
      ⟨a, 1 + p.degree⟩⟩) (hlen : 1 + p.degree ≤ (m a).length) :
    Returns (srandomR seed ⟨m, buf⟩) fun r =>
      (Gen.next^[p.degree * 10] (.feedback (Feedback.seeded p seed))).Aimed a r.1.buf ∧
      (Gen.next^[p.degree * 10] (.feedback (Feedback.seeded p seed))).Kept (r.1.memory a) ∧
      Writes a m r.1.memory := by
  obtain ⟨hcode, hlt, -, -, hsep, hdeg⟩ := p.tables
  obtain ⟨info, t, hm⟩ := List.exists_cons_of_length_pos (show 0 < (m a).length by omega)
  rw [hm, List.length_cons] at hlen
  obtain ⟨x, t, rfl⟩ := List.exists_cons_of_length_pos (show 0 < t.length by omega)
  rw [List.length_cons] at hlen
  have hst : storeWord m ⟨a, 1 + 0⟩ (seedWord seed) = .ok (Function.update m a
      (info :: ([x].set 0 (seedWord seed) ++ t))) :=
    storeWord_table (t := [x]) hm (by simp) (seedWord seed)
  have hw : Writes a m (Function.update m a (info :: ([x].set 0 (seedWord seed) ++ t))) :=
    writes_update (by simp [hm])
  rw [hbuf]
  unfold srandomR
  dsimp only
  rw [if_neg (Nat.not_le.mpr hlt), show (⟨a, 1⟩ : Ptr) = ⟨a, 1 + 0⟩ from rfl, hst, ok_bind,
    if_neg hcode]
  have hsplit : Function.update m a (info :: ([x].set 0 (seedWord seed) ++ t)) a =
      info :: ([] ++ seedWord seed :: t.take (p.degree - 1) ++ t.drop (p.degree - 1)) := by
    simp
  have hfill := fillTable_eq hsplit (n := p.degree - 1) (by simp; omega)
  apply hfill.bind
  intro m' hm'
  rw [Nat.sub_add_cancel (by omega)] at hm'
  have haimed : (Gen.feedback (Feedback.seeded p seed)).Aimed a
      ⟨Ptr.add ⟨a, 1⟩ p.separation, ⟨a, 1⟩, some ⟨a, 1⟩, p.code, p.degree, p.separation,
        ⟨a, 1 + p.degree⟩⟩ := by
    have hfront : (Feedback.seeded p seed).front = p.separation := by
      simp [Feedback.front, Feedback.seeded, Nat.mod_eq_of_lt hdeg]
    show _ = _
    rw [hfront]
    rfl
  have hdis := discard_returns (s := ⟨m', _⟩) (p.degree * 10) haimed ⟨info, _, hm'.1⟩
  apply hdis.bind
  intro s' hs'
  exact returns_ok ⟨hs'.1, hs'.2.1, hw.trans (hm'.2.trans hs'.2.2)⟩

lemma typeFor_eq (seed : UInt32) (h : 8 ≤ n) : typeFor n = some (Gen.seeded seed n).type := by
  unfold typeFor Gen.seeded polyFor
  split_ifs <;> first | omega | (simp only [Gen.type_iterate]; rfl)

lemma polyFor_room {p : Poly} (h : polyFor n = some p) : 4 * (1 + p.degree) ≤ n := by
  unfold polyFor at h
  split_ifs at h <;> cases h <;> simp only [Poly.degree] <;> omega

theorem setUp_of_srandomR {seed : UInt32} (h : Returns (srandomR seed { s with buf := { s.buf with
        randType := g.type
        randSep := seps.getD g.type 0
        randDeg := degrees.getD g.type 0
        endPtr := ⟨a, 1 + degrees.getD g.type 0⟩
        state := some ⟨a, 1⟩ } }) fun r =>
      g.Aimed a r.1.buf ∧ g.Kept (r.1.memory a) ∧ Writes a s.memory r.1.memory) :
    Returns (setUp seed a g.type s) fun r => g.Aimed a r.buf ∧ g.Saved (r.memory a) ∧
      Writes a s.memory r.memory := by
  apply h.bind
  intro r hr
  have hinfo := infoWord_aimed hr.1
  rw [hr.1.type] at hinfo
  rw [hinfo, ok_bind]
  apply (storeInfo_eq hr.2.1).bind
  intro m hm
  exact returns_ok ⟨hr.1, hm.1, hr.2.2.trans hm.2⟩

lemma setUp_returns (seed : UInt32) (hn : 8 ≤ n) (hlen : n ≤ 4 * (s.memory a).length) :
    Returns (setUp seed a (Gen.seeded seed n).type s) fun r =>
      (Gen.seeded seed n).Aimed a r.buf ∧ (Gen.seeded seed n).Saved (r.memory a) ∧
      Writes a s.memory r.memory := by
  apply setUp_of_srandomR
  unfold Gen.seeded
  cases hp : polyFor n with
  | none => exact srandomR_linear seed rfl rfl (by dsimp only; omega)
  | some p =>
    have hroom := polyFor_room hp
    obtain ⟨-, -, hdeg, hsep, -⟩ := p.tables
    have htype : (Gen.next^[p.degree * 10] (.feedback (Feedback.seeded p seed))).type = p.code :=
      Gen.type_iterate _ _
    rw [htype, hdeg, hsep]
    exact srandomR_feedback seed p rfl (by omega)

lemma setstateR_returns {g' : Gen} {b : ℕ} (hb : g.Aimed a s.buf) (hk : g.Kept (s.memory a))
    (hs : b ≠ a → g'.Saved (s.memory b)) (hg : b = a → g' = g) :
    Returns (setstateR b s) fun r => g'.Aimed b r.1.buf ∧ g'.Kept (r.1.memory b) ∧
      g.Saved (r.1.memory a) ∧ Writes a s.memory r.1.memory := by
  rw [setstateR, hb.state]
  apply (saveState_returns hb hk).bind
  intro s' h
  have hsaved : g'.Saved (s'.memory b) := by
    by_cases hba : b = a
    · rw [hba, hg hba]
      exact h.2.1
    · rw [h.2.2.1 b hba]
      exact hs hba
  obtain ⟨junk, hw⟩ := hsaved
  have hload : loadWord s'.memory ⟨b, 0⟩ = .ok g'.info := by
    simp [loadWord, hw, load]
  have hnonneg : ¬g'.info.tmod maxTypes < 0 := by
    have := Int.tmod_nonneg (maxTypes : ℤ) g'.info_nonneg
    omega
  rw [hload, ok_bind, if_neg hnonneg]
  exact returns_ok ⟨restore_aimed _ _ _, ⟨_, junk, hw⟩, h.2⟩

end

structure Entry where
  seed : UInt32
  size : ℕ
  drawn : ℕ

def Entry.gen (e : Entry) : Gen := Gen.next^[e.drawn] (Gen.seeded e.seed e.size)

structure Ledger where
  entries : ℕ → Option Entry
  current : Option ℕ

def Ledger.start : Ledger := ⟨fun _ => none, none⟩

/-- A call by the rules, with the number it should draw: an array has at least 8 bytes and
as many as it is said to have, `setstate_r` gets an array that was set up, and `random_r`
is called with a state. -/
def Ledger.step (words : ℕ → ℕ) (l : Ledger) : Call → Option (Ledger × Option Entry)
  | .init seed a n =>
    if 8 ≤ n ∧ n ≤ 4 * words a then
      some (⟨Function.update l.entries a (some ⟨seed, n, 0⟩), some a⟩, none)
    else none
  | .set a => if (l.entries a).isSome then some ({ l with current := some a }, none) else none
  | .random => do
    let a ← l.current
    let e ← l.entries a
    some (⟨Function.update l.entries a (some { e with drawn := e.drawn + 1 }), some a⟩, some e)

def Ledger.run (words : ℕ → ℕ) : Ledger → List Call → Option (Ledger × List Entry)
  | l, [] => some (l, [])
  | l, c :: cs => do
    let r ← l.step words c
    let r' ← Ledger.run words r.1 cs
    some (r'.1, r.2.toList ++ r'.2)

structure Tracks (words : ℕ → ℕ) (l : Ledger) (s : Machine) : Prop where
  length : ∀ a, (s.memory a).length = words a
  idle : l.current = none → s.buf.state = none ∧ ∀ a, l.entries a = none
  aimed : ∀ a, l.current = some a → ∃ e, l.entries a = some e ∧ e.gen.Aimed a s.buf ∧
    e.gen.Kept (s.memory a)
  saved : ∀ a e, l.entries a = some e → l.current ≠ some a → e.gen.Saved (s.memory a)

section
variable {words : ℕ → ℕ} {l l' : Ledger} {s : Machine}

section
variable (h : Tracks words l s)
include h

theorem saveCurrent_returns :
    Returns (saveCurrent s) fun s' => (∀ a, (s'.memory a).length = words a) ∧
      ∀ a e, l.entries a = some e → e.gen.Saved (s'.memory a) := by
  unfold saveCurrent
  cases hc : l.current with
  | none =>
    obtain ⟨hstate, hnone⟩ := h.idle hc
    rw [hstate]
    apply returns_ok
    refine ⟨h.length, fun a e he => ?_⟩
    rw [hnone a] at he
    contradiction
  | some a =>
    obtain ⟨e, he, haimed, hkept⟩ := h.aimed a hc
    rw [haimed.state]
    apply (saveState_returns haimed hkept).mono
    intro s' hs'
    refine ⟨fun b => (hs'.2.2.length b).trans (h.length b), fun b e' he' => ?_⟩
    by_cases hba : b = a
    · rw [hba] at he' ⊢
      rw [he, Option.some_inj] at he'
      rw [← he']
      exact hs'.2.1
    rw [hs'.2.2.1 b hba]
    apply h.saved b e' he'
    rw [hc]
    exact fun heq => hba (Option.some_inj.mp heq).symm

lemma initstateR_tracks {seed : UInt32} (hn : 8 ≤ n) (hlen : n ≤ 4 * words a) :
    Returns (initstateR seed a n s) fun r =>
      Tracks words ⟨Function.update l.entries a (some ⟨seed, n, 0⟩), some a⟩ r.1 := by
  apply (saveCurrent_returns h).bind
  intro s' hs'
  rw [typeFor_eq seed hn]
  apply (setUp_returns seed hn (by rw [hs'.1]; exact hlen)).bind
  intro s'' h''
  apply returns_ok
  constructor
  · exact fun b => (h''.2.2.length b).trans (hs'.1 b)
  · intro hc
    contradiction
  · intro b hb
    rw [← Option.some_inj.mp hb]
    exact ⟨_, Function.update_self _ _ _, h''.1, h''.2.1.kept⟩
  · intro b e he hb
    have hba : b ≠ a := fun heq => hb (by rw [heq])
    dsimp only at he ⊢
    rw [Function.update_of_ne hba] at he
    rw [h''.2.2.1 b hba]
    exact hs'.2 b e he

lemma setstateR_tracks (ha : (l.entries a).isSome) :
    Returns (setstateR a s) fun r => Tracks words { l with current := some a } r.1 := by
  obtain ⟨e, he⟩ := Option.isSome_iff_exists.mp ha
  cases hc : l.current with
  | none =>
    rw [(h.idle hc).2 a] at he
    contradiction
  | some b =>
    obtain ⟨e', he', haimed, hkept⟩ := h.aimed b hc
    have hsaved : a ≠ b → e.gen.Saved (s.memory a) := by
      intro hab
      apply h.saved a e he
      rw [hc]
      exact fun heq => hab (Option.some_inj.mp heq).symm
    have hsame : a = b → e.gen = e'.gen := by
      intro hab
      rw [hab, he', Option.some_inj] at he
      rw [he]
    apply (setstateR_returns haimed hkept hsaved hsame).mono
    intro r hr
    constructor
    · exact fun c => (hr.2.2.2.length c).trans (h.length c)
    · intro hnone
      contradiction
    · intro c hac
      rw [← Option.some_inj.mp hac]
      exact ⟨e, he, hr.1, hr.2.1⟩
    · intro c e'' he'' hac
      by_cases hcb : c = b
      · rw [hcb] at he'' ⊢
        have heq : e' = e'' := Option.some_inj.mp (he'.symm.trans he'')
        rw [← heq]
        exact hr.2.2.1
      rw [hr.2.2.2.1 c hcb]
      apply h.saved c e'' he''
      rw [hc]
      exact fun heq => hcb (Option.some_inj.mp heq).symm

lemma randomR_tracks (ha : l.current = some a) (he : l.entries a = some e) :
    Returns (randomR s) fun r => r.2 = element e.seed e.size e.drawn ∧
      Tracks words ⟨Function.update l.entries a (some { e with drawn := e.drawn + 1 }), some a⟩
        r.1 := by
  obtain ⟨e', he', haimed, hkept⟩ := h.aimed a ha
  have heq : e' = e := Option.some_inj.mp (he'.symm.trans he)
  rw [heq] at haimed hkept
  apply (randomR_returns haimed hkept).mono
  intro r hr
  have hnext : e.gen.next = Entry.gen { e with drawn := e.drawn + 1 } :=
    (Function.iterate_succ_apply' _ _ _).symm
  rw [hnext] at hr
  refine ⟨hr.1, ?_, ?_, ?_, ?_⟩
  · exact fun b => (hr.2.2.2.length b).trans (h.length b)
  · intro hnone
    contradiction
  · intro b hb
    rw [← Option.some_inj.mp hb]
    exact ⟨_, Function.update_self _ _ _, hr.2.1, hr.2.2.1⟩
  · intro b e'' he'' hb
    have hba : b ≠ a := fun heq => hb (by rw [heq])
    dsimp only at he''
    rw [Function.update_of_ne hba] at he''
    rw [hr.2.2.2.1 b hba]
    apply h.saved b e'' he''
    rw [ha]
    exact fun heq => hba (Option.some_inj.mp heq).symm

def Entry.value (e : Entry) : ℤ := element e.seed e.size e.drawn

lemma call_tracks {c : Call} {d : Option Entry} (hstep : l.step words c = some (l', d)) :
    Returns (c.run s) fun r => r.2 = d.map Entry.value ∧ Tracks words l' r.1 := by
  cases c with
  | init seed a n =>
    dsimp only [Ledger.step] at hstep
    split_ifs at hstep with hcond
    cases hstep
    apply (initstateR_tracks h hcond.1 hcond.2).bind
    exact fun r hr => returns_ok ⟨rfl, hr⟩
  | set a =>
    dsimp only [Ledger.step] at hstep
    split_ifs at hstep with hcond
    cases hstep
    apply (setstateR_tracks h hcond).bind
    exact fun r hr => returns_ok ⟨rfl, hr⟩
  | random =>
    obtain ⟨a, ha, hstep⟩ := Option.bind_eq_some_iff.mp hstep
    obtain ⟨e, he, hstep⟩ := Option.bind_eq_some_iff.mp hstep
    cases hstep
    apply (randomR_tracks h ha he).bind
    intro r hr
    apply returns_ok
    exact ⟨by rw [hr.1]; rfl, hr.2⟩

lemma runCalls_tracks {calls : List Call} {ds : List Entry}
    (hrun : l.run words calls = some (l', ds)) :
    Returns (runCalls calls s) fun r => r.2 = ds.map Entry.value ∧ Tracks words l' r.1 := by
  induction calls generalizing l s ds with
  | nil =>
    cases hrun
    exact returns_ok ⟨rfl, h⟩
  | cons c cs ih =>
    obtain ⟨⟨l1, d⟩, hstep, hrun⟩ := Option.bind_eq_some_iff.mp hrun
    obtain ⟨⟨l2, ds'⟩, hrest, hrun⟩ := Option.bind_eq_some_iff.mp hrun
    cases hrun
    apply (call_tracks h hstep).bind
    intro r hr
    apply (ih hr.2 hrest).bind
    intro r' hr'
    apply returns_ok
    refine ⟨?_, hr'.2⟩
    rw [hr.1, hr'.1]
    cases d <;> simp

end

lemma Ledger.size_of_run {calls : List Call} {ds : List Entry}
    (hl : ∀ a e, l.entries a = some e → 8 ≤ e.size) (hrun : l.run words calls = some (l', ds)) :
    ∀ e ∈ ds, 8 ≤ e.size := by
  induction calls generalizing l ds with
  | nil =>
    cases hrun
    simp
  | cons c cs ih =>
    obtain ⟨⟨l1, d⟩, hstep, hrun⟩ := Option.bind_eq_some_iff.mp hrun
    obtain ⟨⟨l2, ds'⟩, hrest, hrun⟩ := Option.bind_eq_some_iff.mp hrun
    cases hrun
    have hupdate : ∀ b e', 8 ≤ e'.size →
        ∀ a e, Function.update l.entries b (some e') a = some e → 8 ≤ e.size := by
      intro b e' he' a e he
      by_cases hab : a = b
      · rw [hab, Function.update_self, Option.some_inj] at he
        rwa [← he]
      · rw [Function.update_of_ne hab] at he
        exact hl a e he
    have hd : (∀ a e, l1.entries a = some e → 8 ≤ e.size) ∧ ∀ e ∈ d, 8 ≤ e.size := by
      cases c with
      | init seed a n =>
        dsimp only [Ledger.step] at hstep
        split_ifs at hstep with hcond
        cases hstep
        exact ⟨hupdate a _ hcond.1, by simp⟩
      | set a =>
        dsimp only [Ledger.step] at hstep
        split_ifs at hstep with hcond
        cases hstep
        exact ⟨hl, by simp⟩
      | random =>
        obtain ⟨a, ha, hstep⟩ := Option.bind_eq_some_iff.mp hstep
        obtain ⟨e, he, hstep⟩ := Option.bind_eq_some_iff.mp hstep
        cases hstep
        refine ⟨hupdate a _ (hl a e he), ?_⟩
        intro e' he'
        rw [← Option.some_inj.mp he']
        exact hl a e he
    intro e he
    rcases List.mem_append.mp he with he | he
    · exact hd.2 e (Option.mem_toList.mp he)
    · exact ih hd.1 hrest e he

theorem Ledger.run_replicate (n : ℕ) (ha : l.current = some a) (he : l.entries a = some e) :
    ∃ l', l.run words (List.replicate n .random) =
      some (l', (List.range' e.drawn n).map fun k => { e with drawn := k }) := by
  induction n generalizing l e with
  | zero => exact ⟨l, rfl⟩
  | succ n ih =>
    have hstep : l.step words .random = some (⟨Function.update l.entries a
        (some { e with drawn := e.drawn + 1 }), some a⟩, some e) := by
      simp [Ledger.step, ha, he]
    obtain ⟨l', hl'⟩ := ih (l := ⟨Function.update l.entries a
      (some { e with drawn := e.drawn + 1 }), some a⟩) rfl (Function.update_self _ _ _)
    refine ⟨l', ?_⟩
    simp [List.replicate_succ, Ledger.run, hstep, hl', List.range'_succ]

lemma tracks_start (hs : s.buf.state = none) :
    Tracks (fun a => (s.memory a).length) Ledger.start s where
  length := fun _ => rfl
  idle := fun _ => ⟨hs, fun _ => rfl⟩
  aimed := fun a ha => by contradiction
  saved := fun a e he => by contradiction

end

def blank : RandomData := ⟨⟨0, 0⟩, ⟨0, 0⟩, none, 0, 0, 0, ⟨0, 0⟩⟩

def Entry.alone (e : Entry) : Option ℤ :=
  match runCalls (.init e.seed 0 e.size :: List.replicate (e.drawn + 1) .random)
    ⟨fun _ => List.replicate ((e.size + 3) / 4) 0, blank⟩ with
  | .ok r => r.2[e.drawn]?
  | .error _ => none

lemma Entry.alone_eq (he : 8 ≤ e.size) : e.alone = some e.value := by
  let s : Machine := ⟨fun _ => List.replicate ((e.size + 3) / 4) 0, blank⟩
  have hstep : Ledger.start.step (fun a => (s.memory a).length) (.init e.seed 0 e.size) =
      some (⟨Function.update Ledger.start.entries 0 (some ⟨e.seed, e.size, 0⟩), some 0⟩, none) := by
    apply if_pos
    simp [s]
    omega
  obtain ⟨l', hl'⟩ : ∃ l', Ledger.run (fun a => (s.memory a).length)
      ⟨Function.update Ledger.start.entries 0 (some ⟨e.seed, e.size, 0⟩), some 0⟩
      (List.replicate (e.drawn + 1) .random) =
      some (l', (List.range' 0 (e.drawn + 1)).map fun k => ⟨e.seed, e.size, k⟩) :=
    Ledger.run_replicate (e := ⟨e.seed, e.size, 0⟩) _ rfl rfl
  have hrun : Ledger.start.run (fun a => (s.memory a).length)
      (.init e.seed 0 e.size :: List.replicate (e.drawn + 1) .random) =
      some (l', (List.range' 0 (e.drawn + 1)).map fun k => ⟨e.seed, e.size, k⟩) := by
    simp [Ledger.run, hstep, hl']
  obtain ⟨r, hr, hvalues, -⟩ := runCalls_tracks (tracks_start rfl) hrun
  rw [Entry.alone, hr]
  dsimp only
  rw [hvalues]
  simp

/-- Both pointers lie in the table of the array `a`, the front one ahead of the rear one by
the separation, modulo the degree. -/
def InTable (a : ℕ) (buf : RandomData) : Prop :=
  ∃ rear front, buf.rptr = ⟨a, 1 + rear⟩ ∧ buf.fptr = ⟨a, 1 + front⟩ ∧
    rear < degrees.getD buf.randType 0 ∧ front < degrees.getD buf.randType 0 ∧
    front = (rear + seps.getD buf.randType 0) % degrees.getD buf.randType 0

lemma Gen.Aimed.inTable {g : Gen} (h : g.Aimed a buf)
    (htype : buf.randType ≠ 0) : InTable a buf := by
  cases g with
  | linear x => exact absurd h.2 htype
  | feedback f =>
    obtain ⟨-, -, hdeg, hsep, -⟩ := f.poly.tables
    rw [show buf = _ from h]
    rw [InTable, hdeg, hsep]
    exact ⟨f.rear, f.front, rfl, rfl, f.rear_lt, f.front_lt, rfl⟩

/-- Generators can be switched: whatever a program does, each number is the one that the
generator of the current array would draw alone. While its type is not 0 the pointers lie
in its table. -/
theorem generators_switch (s : Machine) (hs : s.buf.state = none) (calls : List Call)
    (l : Ledger) (draws : List Entry)
    (h : Ledger.start.run (fun a => (s.memory a).length) calls = some (l, draws)) :
    Returns (runCalls calls s) fun r => r.2.map some = draws.map Entry.alone ∧
      ∀ a, l.current = some a → r.1.buf.state = some ⟨a, 1⟩ ∧
        (r.1.buf.randType ≠ 0 → InTable a r.1.buf) := by
  have hsize : ∀ e ∈ draws, 8 ≤ e.size := by
    apply Ledger.size_of_run _ h
    intro a e he
    contradiction
  apply (runCalls_tracks (tracks_start hs) h).mono
  intro r hr
  constructor
  · rw [hr.1, List.map_map]
    apply List.map_congr_left
    exact fun e he => (Entry.alone_eq (hsize e he)).symm
  · intro a ha
    obtain ⟨e, -, haimed, -⟩ := hr.2.aimed a ha
    exact ⟨haimed.state, haimed.inTable⟩

theorem generators_switch_back :
    Returns (runCalls [.init 1 0 32, .random, .init 7 1 8, .random, .set 0, .random]
      ⟨fun _ => List.replicate 8 0, blank⟩) fun r =>
      r.2.map some = [Entry.alone ⟨1, 32, 0⟩, Entry.alone ⟨7, 8, 0⟩, Entry.alone ⟨1, 32, 1⟩] ∧
      r.1.buf.state = some ⟨0, 1⟩ ∧ (r.1.buf.randType ≠ 0 → InTable 0 r.1.buf) := by
  apply (generators_switch ⟨fun _ => List.replicate 8 0, blank⟩ rfl
    [.init 1 0 32, .random, .init 7 1 8, .random, .set 0, .random] _ _ rfl).mono
  exact fun r hr => ⟨hr.1, hr.2 0 rfl⟩

/-- After a switch to a linear generator both pointers are still in the other array. -/
theorem pointers_left_behind :
    Returns (runCalls [.init 1 0 32, .init 1 1 8] ⟨fun _ => List.replicate 8 0, blank⟩) fun r =>
      r.1.buf.state = some ⟨1, 1⟩ ∧ r.1.buf.rptr.array ≠ 1 ∧ r.1.buf.fptr.array ≠ 1 ∧
        ¬InTable 1 r.1.buf := by
  have hrun : (runCalls [.init 1 0 32, .init 1 1 8] ⟨fun _ => List.replicate 8 0, blank⟩).map
      (fun r => (r.1.buf.state, r.1.buf.rptr.array, r.1.buf.fptr.array)) =
      .ok (some ⟨1, 1⟩, 0, 0) := by
    decide +kernel
  apply (returns_of_map hrun).mono
  intro r hr
  rw [Prod.mk.injEq, Prod.mk.injEq] at hr
  obtain ⟨hstate, hrptr, hfptr⟩ := hr
  refine ⟨hstate, by rw [hrptr]; decide, by rw [hfptr]; decide, ?_⟩
  rintro ⟨rear, front, hrear, -⟩
  rw [hrear] at hrptr
  exact absurd hrptr Nat.one_ne_zero

end Eglibc.Random
