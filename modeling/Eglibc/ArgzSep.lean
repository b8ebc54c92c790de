import Eglibc.Bytes
import Eglibc.Envz

/-!
# argz_create_sep and argz_add_sep

Allocations succeed. A block is the bytes written to it, so that the last of them is `wp[-1]`.
-/
namespace Eglibc.Argz
open Bytes Envz

/-- One pass of the loop: what has been written, and `nlen`. -/
def sepStep (delim : UInt8) (s : List UInt8 × ℕ) (c : UInt8) : List UInt8 × ℕ :=
  if c = delim then
    if s.1 ≠ [] ∧ s.1.getLast? ≠ some 0 then (s.1 ++ [0], s.2) else (s.1, s.2 - 1)
  else (s.1 ++ [c], s.2)

def argzCreateSep (string : CString) (delim : UInt8) : Vec :=
  let nlen := string.bytes.length + 1
  if nlen > 1 then
    let s := string.object.foldl (sepStep delim) ([], nlen)
    ⟨if s.2 = 0 then none else some s.1, s.2⟩
  else ⟨none, 0⟩

def argzAddSep (v : Vec) (string : CString) (delim : UInt8) : Vec :=
  let nlen := string.bytes.length + 1
  if nlen > 1 then
    let s := string.object.foldl (sepStep delim) (v.object.take v.len, nlen)
    ⟨some s.1, v.len + s.2⟩
  else v

/-- The longest runs of other characters that are not empty. -/
def fields (delim : UInt8) (string : List UInt8) : List (List UInt8) :=
  (string.splitOn delim).filter (· ≠ [])

/-- The vector has exactly these entries. -/
def Vec.Is (v : Vec) (es : List (List UInt8)) : Prop :=
  v.object.take v.len = encode es ∧ v.len = (es.map (·.length + 1)).sum

def Splits (delim : UInt8) (string : CString) : Prop :=
  Vec.Is (argzCreateSep string delim) (fields delim string.bytes) ∧
    ∀ v es, Vec.Is v es → Vec.Is (argzAddSep v string delim) (es ++ fields delim string.bytes)

lemma length_encode (es : List (List UInt8)) : (encode es).length = (es.map (·.length + 1)).sum := by
  induction es with
  | nil => rfl
  | cons e es ih =>
    simp [encode_cons, ih]
    omega

section
variable {delim : UInt8} {out cur : List UInt8}

lemma foldl_nlen (l : List UInt8) (out : List UInt8) (n : ℕ) (h : l.length ≤ n) :
    (l.foldl (sepStep delim) (out, n)).2 + out.length + l.length =
      n + (l.foldl (sepStep delim) (out, n)).1.length := by
  induction l generalizing out n with
  | nil => rfl
  | cons c l ih =>
    rw [List.length_cons] at h
    rw [List.foldl_cons, sepStep, List.length_cons]
    split_ifs
    · have := ih (out ++ [0]) n (by omega)
      simp only [List.length_append, List.length_singleton] at this ⊢
      omega
    · have := ih out (n - 1) (by omega)
      dsimp only at this ⊢
      omega
    · have := ih (out ++ [c]) n (by omega)
      simp only [List.length_append, List.length_singleton] at this ⊢
      omega

lemma begun_iff (es : List (List UInt8)) (hcur : 0 ∉ cur) :
    (encode es ++ cur ≠ [] ∧ (encode es ++ cur).getLast? ≠ some 0) ↔ cur ≠ [] := by
  rcases List.eq_nil_or_concat' cur with rfl | ⟨cur', c, rfl⟩
  · rcases List.eq_nil_or_concat' es with rfl | ⟨es', e, rfl⟩
    · simp
    · simp [← List.append_assoc]
  have hc : c ≠ 0 := by
    rintro rfl
    exact hcur (by simp)
  simp [← List.append_assoc, hc]

lemma fields_append (hcur : delim ∉ cur) (r : List UInt8) :
    fields delim (cur ++ delim :: r) = (if cur = [] then [] else [cur]) ++ fields delim r := by
  rw [fields, List.splitOn_append_cons_self_of_not_mem hcur]
  by_cases h : cur = [] <;> simp [fields, h]

lemma fields_of_not_mem (hcur : delim ∉ cur) :
    fields delim cur = if cur = [] then [] else [cur] := by
  rw [fields, List.splitOn_eq_singleton hcur]
  by_cases h : cur = [] <;> simp [h]

/-- What the terminator adds after a separator: an entry that is empty. -/
def extra (delim : UInt8) (string : List UInt8) : List (List UInt8) :=
  if delim ≠ 0 ∧ string.getLast?.getD delim = delim then [[]] else []

lemma extra_of_not_mem (hcur : delim ∉ cur) :
    extra delim cur = if delim ≠ 0 ∧ cur = [] then [[]] else [] := by
  rcases List.eq_nil_or_concat' cur with rfl | ⟨cur', c, rfl⟩
  · simp [extra]
  have hc : c ≠ delim := by
    rintro rfl
    exact hcur (by simp)
  simp [extra, hc]

lemma foldl_out (r : List UInt8) (es : List (List UInt8)) (cur : List UInt8) (n : ℕ) (hr : 0 ∉ r)
    (hcur : 0 ∉ cur) (hdelim : delim ∉ cur) :
    ((r ++ [0]).foldl (sepStep delim) (encode es ++ cur, n)).1 =
      encode (es ++ fields delim (cur ++ r) ++ extra delim (cur ++ r)) := by
  induction r generalizing es cur n with
  | nil =>
    rw [List.append_nil, fields_of_not_mem hdelim, extra_of_not_mem hdelim, List.nil_append,
      List.foldl_cons, List.foldl_nil, sepStep]
    simp only [begun_iff es hcur]
    by_cases hzero : (0 : UInt8) = delim
    · by_cases hnil : cur = [] <;> simp [← hzero, hnil]
    · by_cases hnil : cur = [] <;> simp [hzero, Ne.symm hzero, hnil]
  | cons c r ih =>
    rw [List.mem_cons, not_or] at hr
    rw [List.cons_append, List.foldl_cons, sepStep]
    simp only [begun_iff es hcur]
    by_cases hc : c = delim
    · subst hc
      have hextra : extra c (cur ++ c :: r) = extra c r := by
        simp [extra, List.getLast?_append, List.getLast?_cons]
      rw [if_pos rfl, fields_append hdelim, hextra]
      by_cases hnil : cur = []
      · subst hnil
        have := ih es [] (n - 1) hr.2 hcur hdelim
        simpa using this
      · have := ih (es ++ [cur]) [] n hr.2 (by simp) (by simp)
        simpa [hnil] using this
    · have := ih es (cur ++ [c]) n hr.2 (by simp [hcur, hr.1]) (by simp [hdelim, Ne.symm hc])
      simpa [hc] using this

end

lemma splits_of_empty {delim : UInt8} {string : CString} (h : string.bytes = []) :
    Splits delim string := by
  have hfields : fields delim string.bytes = [] := by
    rw [h]
    rfl
  constructor
  · rw [hfields, argzCreateSep, h]
    exact ⟨rfl, rfl⟩
  · intro v es hv
    rwa [hfields, List.append_nil, argzAddSep, h]

section
variable {delim : UInt8} {string : CString} (hne : string.bytes ≠ [])
include hne

omit hne in
lemma foldl_string (es : List (List UInt8)) :
    string.object.foldl (sepStep delim) (encode es, string.bytes.length + 1) =
      (encode (es ++ fields delim string.bytes ++ extra delim string.bytes),
        (encode (fields delim string.bytes ++ extra delim string.bytes)).length) := by
  have hout := @foldl_out delim string.bytes es [] (string.bytes.length + 1)
    string.nul_free List.not_mem_nil List.not_mem_nil
  have hlen := @foldl_nlen delim string.object (encode es) (string.bytes.length + 1)
    string.length_object.le
  rw [List.append_nil, List.nil_append, ← CString.object] at hout
  rw [string.length_object, hout, List.append_assoc, encode_append, List.length_append] at hlen
  refine Prod.ext hout ?_
  omega

lemma one_lt_nlen : string.bytes.length + 1 > 1 :=
  Nat.succ_lt_succ (List.length_pos_iff.mpr hne)

lemma create_is : Vec.Is (argzCreateSep string delim)
    (fields delim string.bytes ++ extra delim string.bytes) := by
  have hloop := @foldl_string delim string []
  rw [argzCreateSep]
  dsimp only
  rw [if_pos (one_lt_nlen hne), show ([] : List UInt8) = encode [] from rfl, hloop]
  refine ⟨?_, length_encode _⟩
  split_ifs with hzero
  · rw [List.length_eq_zero_iff.mp hzero]
    rfl
  · exact List.take_length

lemma add_is (v : Vec) (es : List (List UInt8)) (hv : Vec.Is v es) :
    Vec.Is (argzAddSep v string delim)
      (es ++ (fields delim string.bytes ++ extra delim string.bytes)) := by
  obtain ⟨hobject, hlen⟩ := hv
  have hall := length_encode (es ++ (fields delim string.bytes ++ extra delim string.bytes))
  rw [argzAddSep]
  dsimp only
  rw [if_pos (one_lt_nlen hne), hobject, foldl_string, hlen, ← length_encode, ← List.length_append,
    ← encode_append, List.append_assoc]
  exact ⟨List.take_length, hall⟩

lemma splits_iff_extra : Splits delim string ↔ extra delim string.bytes = [] := by
  constructor
  · rintro ⟨⟨-, hlen⟩, -⟩
    have hcreate := (@create_is delim string hne).2
    rw [hlen, List.map_append, List.sum_append] at hcreate
    unfold extra at hcreate ⊢
    split_ifs at hcreate ⊢
    · simp at hcreate
    · rfl
  · intro hextra
    constructor
    · have hcreate := @create_is delim string hne
      rwa [hextra, List.append_nil] at hcreate
    · intro v es hv
      have hadd := @add_is delim string hne v es hv
      rwa [hextra, List.append_nil] at hadd

lemma extra_eq_nil : extra delim string.bytes = [] ↔ string.bytes.getLast? ≠ some delim := by
  obtain ⟨l, c, hlast⟩ := (List.eq_nil_or_concat' string.bytes).resolve_left hne
  have hc : c ≠ 0 := by
    rintro rfl
    exact string.nul_free (by rw [hlast]; simp)
  rw [hlast, extra, List.getLast?_concat, Option.getD_some]
  split_ifs with h
  · simp [h.2]
  · have hcd : c ≠ delim := fun h' => h ⟨h' ▸ hc, h'⟩
    simp [hcd]

end

/-- The fields are split off rightly exactly if the last character is not a separator. -/
theorem argz_splits_iff (delim : UInt8) (string : CString) :
    Splits delim string ↔ string.bytes.getLast? ≠ some delim := by
  by_cases hne : string.bytes = []
  · simp [hne, splits_of_empty]
  · exact (splits_iff_extra hne).trans (extra_eq_nil hne)

/-- The string `a:` split at colons. -/
theorem argz_trailing_separator : ¬ Splits 58 ⟨[97, 58], by decide, by decide⟩ := by
  rw [splits_iff_extra (by decide)]
  decide

end Eglibc.Argz
