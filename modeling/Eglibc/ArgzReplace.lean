import Eglibc.ArgzSep

/-!
# argz_replace

Allocations succeed, `replace_count` is not null, and a block is the bytes written to it.
-/
namespace Eglibc.Argz
open Envz

/-- `strstr`: where the first occurrence starts. -/
def strstr (needle : List UInt8) : List UInt8 → Option ℕ
  | [] => if needle = [] then some 0 else none
  | c :: cs => if needle <+: c :: cs then some 0 else (strstr needle cs).map (· + 1)

/-- The loop over the occurrences in an entry: `out` has what stands before one, and `start`
is behind it. -/
def substitute (str subst : List UInt8) : ℕ → List UInt8 → List UInt8 → List UInt8
  | 0, out, _ => out
  | n + 1, out, start =>
    let out := out ++ subst
    match strstr str start with
    | some i => substitute str subst n (out ++ start.take i) (start.drop (i + str.length))
    | none => out ++ start

structure Replacing where
  arg : ℕ
  dst : List UInt8
  delayedCopy : Bool
  replaceCount : UInt32

def replaceBody (src str subst : List UInt8) (s : Replacing) : Replacing :=
  let arg := (src.drop s.arg).takeWhile (· ≠ 0)
  let next := s.arg + (arg.length + 1)
  match strstr str arg with
  | some i =>
    let out := substitute str subst arg.length (arg.take i) (arg.drop (i + str.length))
    let dst := if s.delayedCopy then src.take s.arg else s.dst
    ⟨next, dst ++ (out ++ [0]), false, s.replaceCount + 1⟩
  | none =>
    if s.delayedCopy then { s with arg := next }
    else { s with arg := next, dst := s.dst ++ (arg ++ [0]) }

def replaceLoop (src str subst : List UInt8) : ℕ → Replacing → Replacing
  | 0, s => s
  | n + 1, s =>
    if s.arg < src.length then replaceLoop src str subst n (replaceBody src str subst s) else s

def argzReplace (v : Vec) (str subst : List UInt8) (replaceCount : UInt32) : Vec × UInt32 :=
  if str ≠ [] then
    let src := v.object.take v.len
    let s := replaceLoop src str subst src.length ⟨0, [], true, replaceCount⟩
    (if s.delayedCopy then v else ⟨some s.dst, s.dst.length⟩, s.replaceCount)
  else (v, replaceCount)

/-- The bytes with the occurrences replaced from left to right, and their number; `skip`
bytes belong to an occurrence that has been replaced. -/
def replaced (str subst : List UInt8) : ℕ → List UInt8 → List UInt8 × ℕ
  | _, [] => ([], 0)
  | skip + 1, _ :: cs => replaced str subst skip cs
  | 0, c :: cs =>
    if str <+: c :: cs then
      let r := replaced str subst (str.length - 1) cs
      (subst ++ r.1, r.2 + 1)
    else
      let r := replaced str subst 0 cs
      (c :: r.1, r.2)

section
variable {str : List UInt8} (subst : List UInt8)

def replaceAll (str subst e : List UInt8) : List UInt8 := (replaced str subst 0 e).1

def occurrences (str e : List UInt8) : ℕ := (replaced str [] 0 e).2

lemma replaced_skip (k : ℕ) (l : List UInt8) :
    replaced str subst k l = replaced str subst 0 (l.drop k) := by
  induction l generalizing k with
  | nil => cases k <;> simp [replaced]
  | cons c cs ih =>
    cases k with
    | zero => rfl
    | succ k => exact ih k

lemma replaced_count (k : ℕ) (l : List UInt8) :
    (replaced str subst k l).2 = (replaced str [] k l).2 := by
  induction l generalizing k with
  | nil => cases k <;> rfl
  | cons c cs ih =>
    cases k with
    | zero => simp only [replaced]; split_ifs <;> simp [ih]
    | succ k => exact ih k

variable (hstr : str ≠ [])
include hstr

lemma replaced_strstr (l : List UInt8) :
    match strstr str l with
    | some i => i + str.length ≤ l.length ∧ replaced str subst 0 l =
        (l.take i ++ (subst ++ (replaced str subst 0 (l.drop (i + str.length))).1),
          (replaced str subst 0 (l.drop (i + str.length))).2 + 1)
    | none => replaced str subst 0 l = (l, 0) := by
  induction l with
  | nil => simp [strstr, hstr, replaced]
  | cons c cs ih =>
    have hpos := List.length_pos_iff.mpr hstr
    rw [strstr, replaced]
    split_ifs with hat
    · have hdrop : (c :: cs).drop str.length = cs.drop (str.length - 1) := by
        rw [← Nat.sub_add_cancel hpos]
        rfl
      simpa [replaced_skip subst (str.length - 1), hdrop] using hat.length_le
    · cases h : strstr str cs with
      | none =>
        rw [h] at ih
        simp [ih]
      | some i =>
        rw [h] at ih
        simp only [Option.map_some, Nat.add_right_comm i 1, List.length_cons, List.take_succ_cons,
          List.drop_succ_cons, ih.2]
        exact ⟨by omega, rfl⟩

lemma substitute_eq (n : ℕ) (out start : List UInt8) (hn : start.length < n) :
    substitute str subst n out start = out ++ (subst ++ replaceAll str subst start) := by
  induction n generalizing out start with
  | zero => omega
  | succ n ih =>
    have hpos := List.length_pos_iff.mpr hstr
    have hnext := replaced_strstr subst hstr start
    rw [substitute]
    cases h : strstr str start with
    | none =>
      rw [h] at hnext
      simp [replaceAll, hnext]
    | some i =>
      rw [h] at hnext
      dsimp only
      rw [ih _ _ (by simp; omega), replaceAll, replaceAll, hnext.2]
      simp

lemma substitute_first {e : List UInt8} {i : ℕ} (h : strstr str e = some i) :
    substitute str subst e.length (e.take i) (e.drop (i + str.length)) = replaceAll str subst e ∧
      occurrences str e ≠ 0 := by
  have hpos := List.length_pos_iff.mpr hstr
  have hnext := replaced_strstr subst hstr e
  rw [h] at hnext
  constructor
  · rw [substitute_eq subst hstr _ _ _ (by simp; omega), replaceAll, replaceAll, hnext.2]
  · rw [occurrences, ← replaced_count subst, hnext.2]
    simp

lemma replaceAll_none {e : List UInt8} (h : strstr str e = none) :
    replaceAll str subst e = e ∧ occurrences str e = 0 := by
  have hnext := replaced_strstr subst hstr e
  rw [h] at hnext
  rw [occurrences, ← replaced_count subst, replaceAll, hnext]
  exact ⟨rfl, rfl⟩

/-- The loop after the entries `done`. -/
structure Passed (str subst : List UInt8) (count : UInt32) (done : List (List UInt8))
    (s : Replacing) : Prop where
  arg : s.arg = (encode done).length
  delayed : s.delayedCopy = true → done.map (replaceAll str subst) = done
  copied : s.delayedCopy = false → s.dst = encode (done.map (replaceAll str subst))
  count : s.replaceCount = count + UInt32.ofNat (done.countP (occurrences str · ≠ 0))

variable {subst} {count : UInt32} {done todo : List (List UInt8)} {s : Replacing}

lemma Passed.next (todo : List (List UInt8)) (h : Passed str subst count done s) (he : 0 ∉ e) :
    Passed str subst count (done ++ [e])
      (replaceBody (encode (done ++ e :: todo)) str subst s) := by
  have harg : ((encode (done ++ e :: todo)).drop s.arg).takeWhile (· ≠ 0) = e := by
    rw [encode_append, h.arg, List.drop_left, encode_cons, List.takeWhile_append_of_pos]
    · simp
    · intro c hc
      simpa using fun h0 : c = 0 => he (h0 ▸ hc)
  have htake : (encode (done ++ e :: todo)).take s.arg = encode done := by
    rw [encode_append, h.arg, List.take_left]
  rw [replaceBody, harg, htake]
  cases hmatch : strstr str e with
  | some i =>
    obtain ⟨hout, hocc⟩ := substitute_first subst hstr hmatch
    dsimp only
    rw [hout]
    refine ⟨by simp [h.arg], nofun, fun _ => ?_, by simp [h.count, hocc, UInt32.add_assoc]⟩
    cases hd : s.delayedCopy with
    | true => simp [h.delayed hd]
    | false => simp [h.copied hd]
  | none =>
    obtain ⟨hsame, hocc⟩ := replaceAll_none subst hstr hmatch
    split_ifs with hd
    · refine ⟨by simp [h.arg], fun _ => ?_, by simp [hd], by simp [h.count, hocc]⟩
      simpa [hsame] using h.delayed hd
    · refine ⟨by simp [h.arg], by simp [hd], fun _ => ?_, by simp [h.count, hocc]⟩
      simp [hsame, h.copied (by simpa using hd)]

lemma Passed.loop (n : ℕ) (h : Passed str subst count done s) (hn : todo.length ≤ n)
    (hnul : ∀ e ∈ todo, 0 ∉ e) : Passed str subst count (done ++ todo)
      (replaceLoop (encode (done ++ todo)) str subst n s) := by
  induction todo generalizing n done s with
  | nil => cases n <;> simpa [replaceLoop, h.arg] using h
  | cons e todo ih =>
    obtain _ | n := n
    · simp at hn
    have hrest := ih n (h.next hstr todo (hnul e List.mem_cons_self)) (by simpa using hn)
      fun e he => hnul e (List.mem_cons_of_mem _ he)
    rw [replaceLoop, if_pos (by simp [h.arg])]
    simpa using hrest

end

structure Request where
  entries : List (List UInt8)
  nul_free : ∀ e ∈ entries, 0 ∉ e
  str : List UInt8
  nonempty : str ≠ []
  subst : List UInt8

namespace Request
variable (r : Request)

def occurrences : ℕ := (r.entries.map (Argz.occurrences r.str)).sum

def matching : ℕ := r.entries.countP (Argz.occurrences r.str · ≠ 0)

/-- The occurrences are replaced and counted, in a vector with these entries. -/
def Replaces : Prop :=
  ∀ (v : Vec) (count : UInt32), Vec.Is v r.entries →
    Vec.Is (argzReplace v r.str r.subst count).1 (r.entries.map (replaceAll r.str r.subst)) ∧
      (argzReplace v r.str r.subst count).2 = count + UInt32.ofNat r.occurrences

lemma argzReplace_eq (count : UInt32) (h : Vec.Is v r.entries) :
    Vec.Is (argzReplace v r.str r.subst count).1 (r.entries.map (replaceAll r.str r.subst)) ∧
      (argzReplace v r.str r.subst count).2 = count + UInt32.ofNat r.matching := by
  have hstart : Passed r.str r.subst count [] ⟨0, [], true, count⟩ :=
    ⟨rfl, fun _ => rfl, nofun, by simp⟩
  have hend := hstart.loop r.nonempty (encode r.entries).length (length_le_encode r.entries)
    r.nul_free
  rw [List.nil_append] at hend
  rw [argzReplace, if_pos r.nonempty, h.1]
  refine ⟨?_, hend.count⟩
  dsimp only
  split_ifs with hd
  · rwa [hend.delayed hd]
  · have hcopied := hend.copied (by simpa using hd)
    exact ⟨by simp [Vec.object, hcopied], by rw [← length_encode, ← hcopied]⟩

end Request

/-- The counter goes up once for an entry, however often the string occurs in it. -/
theorem argz_replaces_iff (r : Request) :
    r.Replaces ↔ r.matching ≡ r.occurrences [MOD 2 ^ 32] := by
  constructor
  · intro h
    have hv : Vec.Is ⟨some (encode r.entries), (encode r.entries).length⟩ r.entries :=
      ⟨List.take_length, length_encode _⟩
    have hcount := (r.argzReplace_eq 0 hv).2.symm.trans (h _ 0 hv).2
    simpa [Nat.ModEq] using congrArg UInt32.toNat hcount
  · intro h v count hv
    obtain ⟨hvec, hcount⟩ := r.argzReplace_eq count hv
    refine ⟨hvec, hcount.trans ?_⟩
    congr 1
    exact UInt32.toNat_inj.mp (by simpa [Nat.ModEq] using h)

/-- `a` replaced in `aa` -/
def twice : Request := ⟨[[97, 97]], by decide, [97], by decide, []⟩

theorem argz_replace_twice : ¬ twice.Replaces := by
  intro h
  exact absurd (h ⟨some [97, 97, 0], 3⟩ 0 ⟨rfl, rfl⟩).2 (by decide)

end Eglibc.Argz
