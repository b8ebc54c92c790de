import Eglibc.Bytes
import Eglibc.Envz

/-!
# An environment vector is a finite map

The map goes from names to optional values, and a run of operations answers as the map.
-/
namespace Eglibc.Envz
open Checked Segments Bytes

variable {e other : List UInt8} {rest : List (List UInt8)} {i : ℕ}

/-! ## The map -/

/-- What is known of each name: its entry's value, if there is an entry. -/
abbrev Map := List UInt8 → Option (Option (List UInt8))

namespace Map

def empty : Map := fun _ => none

def add (m : Map) (name : List UInt8) (value : Option (List UInt8)) : Map :=
  Function.update m name (some value)

def remove (m : Map) (name : List UInt8) : Map := Function.update m name none

def strip (m : Map) : Map := fun name =>
  match m name with
  | some (some value) => some (some value)
  | _ => none

def merge (m other : Map) (override : Bool) : Map := fun name =>
  match other name with
  | none => m name
  | some value => if override || (m name).isNone then some value else m name

end Map

def lookup (es : List (List UInt8)) : Map := fun name =>
  (es.find? (nameOf · = name)).map valueOf

def Distinct (es : List (List UInt8)) : Prop := (es.map nameOf).Nodup

section
variable {es u w : List (List UInt8)} {e name : List UInt8}

lemma lookup_eq_none : lookup es name = none ↔ ∀ e ∈ es, nameOf e ≠ name := by
  simp [lookup]

lemma lookup_cons (e : List UInt8) (es : List (List UInt8)) (name : List UInt8) :
    lookup (e :: es) name = if nameOf e = name then some (valueOf e) else lookup es name := by
  by_cases h : nameOf e = name <;> simp [lookup, h]

lemma lookup_append (u w : List (List UInt8)) (name : List UInt8) :
    lookup (u ++ w) name = (lookup u name).or (lookup w name) := by
  induction u with
  | nil => simp [lookup]
  | cons e u ih =>
    rw [List.cons_append, lookup_cons, lookup_cons, ih]
    split_ifs <;> simp

lemma Distinct.notMem (h : Distinct (u ++ e :: w)) : ∀ x ∈ u ++ w, nameOf x ≠ nameOf e := by
  intro x hx heq
  have hperm : (u ++ e :: w).Perm (e :: (u ++ w)) := List.perm_middle
  have hnodup := (hperm.map nameOf).nodup_iff.mp h
  rw [List.map_cons, List.nodup_cons] at hnodup
  exact hnodup.1 (heq ▸ List.mem_map_of_mem hx)

lemma Distinct.delete (h : Distinct (u ++ e :: w)) : Distinct (u ++ w) := by
  have hsub : (u ++ w).Sublist (u ++ e :: w) :=
    (List.Sublist.refl u).append (List.sublist_cons_self e w)
  exact List.Nodup.sublist (hsub.map nameOf) h

lemma lookup_delete (h : Distinct (u ++ e :: w)) :
    lookup (u ++ w) = (lookup (u ++ e :: w)).remove (nameOf e) := by
  funext name
  by_cases hname : name = nameOf e
  · subst hname
    simpa [Map.remove] using lookup_eq_none.mpr h.notMem
  · have hne : ¬ nameOf e = name := fun he => hname he.symm
    simp only [Map.remove, Function.update_of_ne hname, lookup_append, lookup_cons, if_neg hne]

lemma Distinct.push (h : Distinct es) (hnew : ∀ x ∈ es, nameOf x ≠ nameOf e) :
    Distinct (es ++ [e]) := by
  rw [Distinct, List.map_append, List.map_singleton, List.nodup_append]
  refine ⟨h, by simp, ?_⟩
  intro a ha b hb
  obtain ⟨x, hx, rfl⟩ := List.mem_map.mp ha
  rw [List.mem_singleton.mp hb]
  exact hnew x hx

lemma lookup_push (hnew : ∀ x ∈ es, nameOf x ≠ nameOf e) :
    lookup (es ++ [e]) = (lookup es).add (nameOf e) (valueOf e) := by
  funext name
  by_cases hname : name = nameOf e
  · subst hname
    have hnone : lookup es (nameOf e) = none := lookup_eq_none.mpr hnew
    simp [Map.add, lookup_append, lookup_cons, hnone]
  · have hne : ¬ nameOf e = name := fun he => hname he.symm
    have hempty : lookup [] name = none := rfl
    simp [Map.add, lookup_append, lookup_cons, hname, hne, hempty]

lemma lookup_strip (h : Distinct es) : lookup (es.filter (sep ∈ ·)) = (lookup es).strip := by
  induction es with
  | nil => rfl
  | cons e es ih =>
    have hrest : Distinct es := (List.nodup_cons.mp h).2
    have hnew : ∀ x ∈ es, nameOf x ≠ nameOf e := Distinct.notMem (u := []) h
    funext name
    have ih := congrFun (ih hrest) name
    by_cases hsep : sep ∈ e
    · obtain ⟨value, -, hvalue⟩ := entry_split hsep
      rw [List.filter_cons_of_pos (by simpa using hsep), lookup_cons, ih]
      by_cases hname : nameOf e = name <;> simp [Map.strip, lookup_cons, hname, hvalue]
    have hvalue : valueOf e = none := by simp [valueOf, hsep]
    rw [List.filter_cons_of_neg (by simpa using hsep), ih]
    by_cases hname : nameOf e = name
    · have hnone : lookup es name = none := lookup_eq_none.mpr (hname ▸ hnew)
      simp [Map.strip, lookup_cons, hname, hvalue, hnone]
    · simp [Map.strip, lookup_cons, hname]

end

/-! ## Operations on vectors -/

structure Represents (v : Vec) (m : Map) (es : List (List UInt8)) : Prop where
  is : Is v es
  distinct : Distinct es
  lookup_eq : lookup es = m

structure Name extends CString where
  sep_free : sep ∉ bytes

structure Other where
  vec : Vec
  map : Map
  entries : List (List UInt8)
  represents : Represents vec map entries

inductive Op
  | add (name : Name) (value : Option CString)
  | remove (name : CString)
  | strip
  | merge (other : Other) (override : Bool)

def Op.perform (junk : ℕ → UInt8) (v : Vec) : Op → Run Vec
  | .add name value => envzAdd junk v name.object (value.map CString.object)
  | .remove name => envzRemove v name.object
  | .strip => envzStrip v
  | .merge other override => envzMerge junk v other.vec override

def Op.onMap (m : Map) : Op → Map
  | .add name value => m.add name.bytes (value.map CString.bytes)
  | .remove name => m.remove (nameOf name.bytes)
  | .strip => m.strip
  | .merge other override => m.merge other.map override

section
variable {v : Vec} {m : Map} {es : List (List UInt8)}

lemma object_holds (s : CString) : Holds s.object 0 (s.bytes ++ [0]) := by
  intro j hj
  simp [CString.object]

lemma Represents.delete (h : Represents v m (u ++ e :: w)) :
    Returns (argzDelete v (encode u).length) fun v' =>
      Represents v' (m.remove (nameOf e)) (u ++ w) := by
  apply (argzDelete_returns h.is).mono
  intro v' hv'
  exact ⟨hv', h.distinct.delete, by rw [lookup_delete h.distinct, h.lookup_eq]⟩

section
variable (h : Represents v m es)
include h

lemma Represents.remove (name : CString) : Returns (envzRemove v name.object) fun v' =>
      ∃ es', Represents v' (m.remove (nameOf name.bytes)) es' ∧
        ∀ e ∈ es', nameOf e ≠ nameOf name.bytes := by
  unfold envzRemove
  obtain ⟨hnone, hentry⟩ | ⟨u, e, w, rfl, -, hname, hentry⟩ :=
    envzEntry_cases h.is (object_holds name) name.nul_free
  · rw [hentry, ok_bind]
    apply returns_ok
    have hsame : m.remove (nameOf name.bytes) = m := by
      have hlookup := lookup_eq_none.mpr hnone
      rw [h.lookup_eq] at hlookup
      simp [Map.remove, ← hlookup]
    rw [hsame]
    exact ⟨es, h, hnone⟩
  rw [hentry, ok_bind, ← hname]
  apply h.delete.mono
  intro v' hv'
  exact ⟨u ++ w, hv', h.distinct.notMem⟩

lemma Represents.push (hnew : ∀ x ∈ es, nameOf x ≠ nameOf e) (hv' : Is v' (es ++ [e])) :
    Represents v' (m.add (nameOf e) (valueOf e)) (es ++ [e]) :=
  ⟨hv', h.distinct.push hnew, by rw [lookup_push hnew, h.lookup_eq]⟩

omit h in
lemma writes_returns (h : Is v es) (junk : ℕ → UInt8) (name value : CString) : Returns (do
        let block := realloc junk v.block (v.len + name.bytes.length + 1 + value.bytes.length + 1)
        let block ← storeRange block v.len (← loadRange name.object 0 name.bytes.length)
        let block ← store block (v.len + name.bytes.length) sep
        let block ← storeRange block (v.len + name.bytes.length + 1)
          (← loadRange value.object 0 value.bytes.length)
        store block (v.len + name.bytes.length + 1 + value.bytes.length + 1 - 1) 0) fun s =>
      Holds s 0 (encode es ++ (name.bytes ++ sep :: value.bytes ++ [0])) := by
  have hload : ∀ s : CString, loadRange s.object 0 s.bytes.length = .ok s.bytes := by
    intro s
    rw [loadRange, if_pos (by simp [CString.object])]
    simp [CString.object]
  have hstart := realloc_holds h junk (name.bytes.length + 1 + value.bytes.length + 1)
  have hsum : v.len + (name.bytes.length + 1 + value.bytes.length + 1) =
      v.len + name.bytes.length + 1 + value.bytes.length + 1 := by omega
  rw [hsum] at hstart
  have hlen := h.len
  simp only [hload, ok_bind]
  apply (storeRange_returns (by simp; omega)).bind
  intro s₁ h₁
  have hs₁ := h₁.extend hstart (by omega)
  have hl₁ := h₁.length_eq
  rw [realloc_length] at hl₁
  apply (store_returns (by omega)).bind
  intro s₂ h₂
  have hs₂ := h₂.extend hs₁ (by simp; omega)
  have hl₂ := h₂.length_eq
  apply (storeRange_returns (by omega)).bind
  intro s₃ h₃
  have hs₃ := h₃.extend hs₂ (by simp; omega)
  have hl₃ := h₃.length_eq
  apply (store_returns (by omega)).mono
  intro s₄ h₄
  have hs₄ := h₄.extend hs₃ (by simp; omega)
  simpa using hs₄

omit h in
lemma Map.remove_add (m : Map) (name : List UInt8) (value : Option (List UInt8)) :
    (m.remove name).add name value = m.add name value := by
  simp [Map.remove, Map.add]

omit h in
lemma nameOf_append_sep (h : sep ∉ n) (w : List UInt8) :
    nameOf (n ++ sep :: w) = n ∧ valueOf (n ++ sep :: w) = some w := by
  have hname : ∀ c ∈ n, decide (c ≠ sep) = true := by
    intro c hc
    simpa using fun hcs : c = sep => h (hcs ▸ hc)
  constructor
  · rw [nameOf, List.takeWhile_append_of_pos hname]
    simp
  · rw [valueOf, if_pos (by simp), List.dropWhile_append_of_pos hname]
    simp

lemma Represents.add (junk : ℕ → UInt8) (name : Name) (value : Option CString) :
    Returns (envzAdd junk v name.object (value.map CString.object)) fun v' =>
      ∃ es', Represents v' (m.add name.bytes (value.map CString.bytes)) es' := by
  have hname : nameOf name.bytes = name.bytes := nameOf_of_notMem name.sep_free
  have hstrlen : ∀ s : CString, strlen s.object 0 = .ok s.bytes.length :=
    fun s => strlen_eq (object_holds s) s.nul_free
  apply (h.remove name.toCString).bind
  rintro v' ⟨es', hv', hnew⟩
  rw [hname] at hv' hnew
  cases value with
  | none =>
    have happend := argzAppend_returns hv'.is junk (object_holds name.toCString) name.nul_free
    simp [argzAdd, hstrlen, ok_bind]
    apply happend.mono
    intro v'' hv''
    have hvalue : valueOf name.bytes = none := by simp [valueOf, name.sep_free]
    have hpush := hv'.push (by rwa [hname]) hv''
    rw [hname, hvalue, Map.remove_add] at hpush
    exact ⟨_, hpush⟩
  | some value =>
    obtain ⟨hentry, hvalue⟩ := nameOf_append_sep name.sep_free value.bytes
    simp only [Option.map_some, hstrlen, ok_bind]
    have hwrites := writes_returns hv'.is junk name.toCString value
    have hdone : ∀ s, Holds s 0 (encode es' ++ (name.bytes ++ sep :: value.bytes ++ [0])) →
        Returns (.ok (⟨some s, v'.len + name.bytes.length + 1 + value.bytes.length + 1⟩ : Vec))
          fun v'' => ∃ es'', Represents v'' (m.add name.bytes (some value.bytes)) es'' := by
      intro s hs
      have hfree : 0 ∉ name.bytes ++ sep :: value.bytes := by
        simp [name.nul_free, value.nul_free, sep]
      have hlen : v'.len + ((name.bytes ++ sep :: value.bytes).length + 1) =
          v'.len + name.bytes.length + 1 + value.bytes.length + 1 := by simp; omega
      have hpush := hv'.push (by rwa [hentry]) (hv'.is.push hfree hs)
      rw [hentry, hvalue, Map.remove_add, hlen] at hpush
      exact returns_ok ⟨_, hpush⟩
    simpa only [bind_assoc] using hwrites.bind hdone

/-! ### Stripping -/

omit h in
lemma stripBody_returns (h : Holds object 0 (encode (kept ++ e :: todo))) (he : 0 ∉ e) :
    Returns (stripBody ⟨object, (encode kept).length, (encode (e :: todo)).length⟩) fun r =>
      ∃ s kept', r = .inl s ∧ kept' = kept ++ [e].filter (sep ∈ ·) ∧
        s.entry = (encode kept').length ∧ s.left = (encode todo).length ∧
        Holds s.object 0 (encode (kept' ++ todo)) := by
  have hentry : Holds object (encode kept).length (e ++ 0 :: encode todo) := by
    rw [encode_append, encode_cons] at h
    simpa using Holds.tail h
  have hleft : (encode (e :: todo)).length - (e.length + 1) = (encode todo).length := by
    simp only [encode_cons, List.length_append, List.length_cons]
    omega
  have hne : ¬ (encode (e :: todo)).length = 0 := by simp
  simp only [stripBody, if_neg hne, strlen_eq hentry he, hasSep_eq hentry he, ok_bind, hleft]
  by_cases hsep : sep ∈ e
  · simp only [hsep, decide_true, if_true]
    apply returns_ok
    refine ⟨_, kept ++ [e], rfl, by simp [hsep], ?_, rfl, ?_⟩
    · simp
    · simpa using h
  obtain ⟨s', hs', -, hholds⟩ := delete_returns h
  have hmoved : (do
      let moved ← loadRange object ((encode kept).length + (e.length + 1)) (encode todo).length
      .ok (.inl (⟨← storeRange object (encode kept).length moved, (encode kept).length,
        (encode todo).length⟩ : Strip)) : Run (Strip ⊕ Strip)) =
      .ok (.inl ⟨s', (encode kept).length, (encode todo).length⟩) := by
    rw [← bind_assoc, hs']
    rfl
  simp only [hsep, decide_false, Bool.false_eq_true, if_false]
  rw [hmoved]
  exact returns_ok ⟨_, kept, rfl, by simp [hsep], rfl, rfl, hholds⟩

omit h in
lemma strip_returns (kept : List (List UInt8))
    (h : Holds object 0 (encode (kept ++ todo))) (hfree : ∀ e ∈ todo, 0 ∉ e)
    (hb : todo.length < budget) :
    Returns (iterate stripBody budget ⟨object, (encode kept).length, (encode todo).length⟩) fun s =>
      s.entry = (encode (kept ++ todo.filter (sep ∈ ·))).length ∧
      Holds s.object 0 (encode (kept ++ todo.filter (sep ∈ ·))) := by
  induction todo generalizing object kept budget with
  | nil =>
    obtain _ | budget := budget
    · omega
    exact returns_ok ⟨by simp, by simpa using h⟩
  | cons e todo ih =>
    obtain _ | budget := budget
    · omega
    obtain ⟨r, hr, s, kept', rfl, hkept, hentry, hleft, hholds⟩ :=
      stripBody_returns h (hfree e List.mem_cons_self)
    have hlt : todo.length < budget := by
      simp at hb
      omega
    have hrest := ih kept' hholds (fun x hx => hfree x (List.mem_cons_of_mem _ hx)) hlt
    have hlist : kept' ++ todo.filter (sep ∈ ·) = kept ++ (e :: todo).filter (sep ∈ ·) := by
      rw [hkept, List.append_assoc, ← List.filter_append]
      rfl
    rw [iterate_next hr, ← hlist]
    rwa [← hentry, ← hleft] at hrest

lemma Represents.strip : Returns (envzStrip v) fun v' => ∃ es', Represents v' m.strip es' := by
  have hlen := length_le_encode es
  rw [envzStrip, h.is.len]
  apply (strip_returns [] h.is.holds h.is.nul_free (by omega)).bind
  rintro s ⟨hentry, hholds⟩
  apply returns_ok
  refine ⟨es.filter (sep ∈ ·), ⟨hentry, ?_, ?_⟩, ?_, by rw [lookup_strip h.distinct, h.lookup_eq]⟩
  · cases hb : v.block with
    | some block => exact hholds
    | none =>
      have hle := h.is.le_length
      have hes : es = [] := by
        rw [h.is.len] at hle
        simp only [Vec.object, hb, Option.getD_none, List.length_nil] at hle
        exact List.eq_nil_of_length_eq_zero (by omega)
      rw [hes]
      exact holds_nil
  · intro e he
    exact h.is.nul_free e (List.mem_filter.mp he).1
  · exact List.Nodup.sublist ((List.filter_sublist).map nameOf) h.distinct

/-! ### Merging -/

def mergeEntry (override : Bool) (m : Map) (e : List UInt8) : Map :=
  if override || (m (nameOf e)).isNone then m.add (nameOf e) (valueOf e) else m

omit h in
lemma foldl_mergeEntry (override : Bool) (h : Distinct rest) (m : Map) :
    rest.foldl (mergeEntry override) m = m.merge (lookup rest) override := by
  induction rest generalizing m with
  | nil => rfl
  | cons e rest ih =>
    have hnew : lookup rest (nameOf e) = none :=
      lookup_eq_none.mpr (Distinct.notMem (u := []) h)
    rw [List.foldl_cons, ih (List.nodup_cons.mp h).2]
    funext name
    by_cases hname : name = nameOf e
    · subst hname
      simp only [Map.merge, hnew, lookup_cons, if_true, mergeEntry]
      split_ifs <;> simp [Map.add]
    have hne : ¬ nameOf e = name := fun he => hname he.symm
    have hsame : mergeEntry override m e name = m name := by
      unfold mergeEntry
      split_ifs <;> simp [Map.add, hname]
    simp [Map.merge, lookup_cons, hne, hsame]

section
variable (junk : ℕ → UInt8)
include junk

lemma mergeOne_returns {rest : List UInt8}
    (override : Bool) (ho : Holds other i (e ++ 0 :: rest)) (he : 0 ∉ e) :
    Returns (do mergeOne junk v other i (e.length + 1) override (← envzEntry v other i)) fun v' =>
      ∃ es', Represents v' (mergeEntry override m e) es' := by
  have hname : Holds other i (e ++ [0]) := by
    rw [List.append_cons] at ho
    exact Holds.head ho
  obtain ⟨hnone, hentry⟩ | ⟨u, x, w, rfl, -, hx, hentry⟩ := envzEntry_cases h.is hname he
  · have hmap : mergeEntry override m e = m.add (nameOf e) (valueOf e) := by
      have hlookup := lookup_eq_none.mpr hnone
      rw [h.lookup_eq] at hlookup
      simp [mergeEntry, hlookup]
    rw [hentry, ok_bind, hmap]
    apply (argzAppend_returns h.is junk ho he).mono
    intro v' hv'
    exact ⟨_, h.push hnone hv'⟩
  have hsome : ¬ m (nameOf e) = none := by
    rw [← h.lookup_eq, lookup_eq_none]
    exact fun hall => hall x (by simp) hx
  rw [hentry, ok_bind]
  cases override with
  | false =>
    have hmap : mergeEntry false m e = m := by simp [mergeEntry, Option.isNone_iff_eq_none, hsome]
    rw [hmap]
    exact returns_ok ⟨_, h⟩
  | true =>
    have hmap : mergeEntry true m e = (m.remove (nameOf e)).add (nameOf e) (valueOf e) := by
      simp [mergeEntry, Map.remove_add]
    rw [hmap]
    apply h.delete.bind
    intro v' hv'
    rw [hx] at hv'
    apply (argzAppend_returns hv'.is junk ho he).mono
    intro v'' hv''
    exact ⟨_, hv'.push (hx ▸ h.distinct.notMem) hv''⟩

lemma mergeBody_returns (override : Bool) (ho : Holds other i (encode (e :: rest))) (he : 0 ∉ e) :
    Returns (mergeBody junk other override ⟨v, i, (encode (e :: rest)).length⟩) fun r =>
      ∃ v' es', r = .inl ⟨v', i + (e.length + 1), (encode rest).length⟩ ∧
        Represents v' (mergeEntry override m e) es' := by
  have hleft : (encode (e :: rest)).length - (e.length + 1) = (encode rest).length := by
    simp only [encode_cons, List.length_append, List.length_cons]
    omega
  have hne : ¬ (encode (e :: rest)).length = 0 := by simp
  rw [encode_cons] at ho
  simp only [mergeBody, if_neg hne, strlen_eq ho he, ok_bind, hleft]
  rw [← bind_assoc]
  apply (mergeOne_returns h junk override ho he).bind
  rintro v' ⟨es', hv'⟩
  exact returns_ok ⟨v', es', rfl, hv'⟩

lemma merge_returns (override : Bool) (ho : Holds other i (encode rest))
    (hfree : ∀ e ∈ rest, 0 ∉ e) (hb : rest.length < budget) :
    Returns (iterate (mergeBody junk other override) budget ⟨v, i, (encode rest).length⟩) fun v' =>
      ∃ es', Represents v' (rest.foldl (mergeEntry override) m) es' := by
  induction rest generalizing v m es i budget with
  | nil =>
    obtain _ | budget := budget
    · omega
    exact returns_ok ⟨es, h⟩
  | cons e rest ih =>
    obtain _ | budget := budget
    · omega
    obtain ⟨r, hr, v', es', rfl, hv'⟩ :=
      mergeBody_returns h junk override ho (hfree e List.mem_cons_self)
    rw [iterate_next hr]
    have hrest := Holds.tail ho
    rw [List.length_append, List.length_singleton] at hrest
    exact ih hv' hrest (fun x hx => hfree x (List.mem_cons_of_mem _ hx)) (by simp at hb; omega)

lemma Represents.merge (other : Other) (override : Bool) :
    Returns (envzMerge junk v other.vec override) fun v' =>
      ∃ es', Represents v' (m.merge other.map override) es' := by
  have ho := other.represents
  have hlen := length_le_encode other.entries
  rw [envzMerge, ho.is.len, ← ho.lookup_eq, ← foldl_mergeEntry override ho.distinct]
  exact merge_returns h junk override ho.is.holds ho.is.nul_free (by omega)

/-! ## Runs -/

lemma Represents.perform (op : Op) :
    Returns (op.perform junk v) fun v' => ∃ es', Represents v' (op.onMap m) es' := by
  cases op with
  | add name value => exact h.add junk name value
  | remove name =>
    apply (h.remove name).mono
    rintro v' ⟨es', hv', -⟩
    exact ⟨es', hv'⟩
  | strip => exact h.strip
  | merge other override => exact h.merge junk other override

omit junk in
omit h in
lemma represents_empty : Represents .empty .empty [] :=
  ⟨⟨rfl, holds_nil, by simp⟩, List.nodup_nil, rfl⟩

lemma Represents.run (ops : List Op) :
    Returns (ops.foldlM (fun v op => op.perform junk v) v) fun v' =>
      ∃ es', Represents v' (ops.foldl Op.onMap m) es' := by
  induction ops generalizing v m es with
  | nil => exact returns_ok ⟨es, h⟩
  | cons op ops ih =>
    apply (h.perform junk op).bind
    rintro v' ⟨es', hv'⟩
    exact ih hv'

end

def WellFormed (v : Vec) : Prop :=
  v.len ≤ v.object.length ∧ (v.len ≠ 0 → v.object[v.len - 1]? = some 0)

omit h in
lemma Is.wellFormed (h : Is v es) : WellFormed v := by
  refine ⟨h.le_length, ?_⟩
  intro hne
  obtain rfl | ⟨es, e, rfl⟩ := List.eq_nil_or_concat es
  · exact absurd h.len hne
  have hlen := h.len
  have hlast := h.holds (v.len - 1) (by omega)
  simp only [List.concat_eq_append, encode_append, encode_cons, encode_nil,
    ← List.append_assoc] at hlast hlen
  rw [Nat.zero_add] at hlast
  rw [hlast, hlen, List.length_append, List.length_singleton, Nat.add_sub_cancel,
    List.getElem?_append_right le_rfl]
  simp

def EntryAnswer (es : List (List UInt8)) (name : List UInt8) :
    Option (Option (List UInt8)) → Option ℕ → Prop
  | none, none => True
  | some value, some i => ∃ u e w, es = u ++ e :: w ∧ i = (encode u).length ∧
      nameOf e = name ∧ valueOf e = value
  | _, _ => False

def GetAnswer (v : Vec) : Option (Option (List UInt8)) → Option ℕ → Prop
  | some (some value), some i => Holds v.object i (value ++ [0]) ∧ 0 ∉ value ∧
      i + value.length < v.len
  | some (some _), none => False
  | _, r => r = none

lemma Represents.entry (name : CString) :
    Returns (envzEntry v name.object 0) (EntryAnswer es (nameOf name.bytes) (m (nameOf name.bytes))) := by
  obtain ⟨hnone, hentry⟩ | ⟨u, e, w, rfl, hu, hname, hentry⟩ :=
    envzEntry_cases h.is (object_holds name) name.nul_free
  · rw [hentry, ← h.lookup_eq, lookup_eq_none.mpr hnone]
    exact returns_ok trivial
  have hlookup : m (nameOf name.bytes) = some (valueOf e) := by
    rw [← h.lookup_eq, lookup_append, lookup_eq_none.mpr hu, lookup_cons, if_pos hname]
    rfl
  rw [hentry, hlookup]
  exact returns_ok ⟨u, e, w, rfl, rfl, hname, rfl⟩

lemma Represents.get (name : CString) :
    Returns (envzGet v name.object 0) (GetAnswer v (m (nameOf name.bytes))) := by
  apply (h.entry name).bind
  intro r hr
  cases hm : m (nameOf name.bytes) with
  | none =>
    rw [hm] at hr
    cases r with
    | none => exact returns_ok rfl
    | some i => exact hr.elim
  | some value =>
    rw [hm] at hr
    cases r with
    | none => exact hr.elim
    | some i =>
      obtain ⟨u, e, w, rfl, rfl, -, hvalue⟩ := hr
      have hentry : Holds v.object (encode u).length (e ++ 0 :: encode w) := by
        have := h.is.holds
        rw [encode_append, encode_cons] at this
        simpa using Holds.tail this
      have hlt : e.length < v.object.length + 1 := by
        have := length_of_holds hentry
        omega
      obtain ⟨hnone, hscan⟩ | ⟨text, j, hsome, hfree, hscan, hholds, hend⟩ :=
        value_cases hentry (h.is.nul_free e (by simp)) hlt
      · rw [← hvalue, hnone]
        exact ⟨none, hscan, rfl⟩
      have hlen := h.is.len
      simp at hlen
      rw [List.append_cons] at hholds
      rw [← hvalue, hsome]
      exact ⟨some j, hscan, Holds.head hholds, hfree, by omega⟩

end

/-- A vector behaves as a finite map: every run of operations from an empty
vector ends in a well-formed vector with distinct names, and `envz_entry` and
`envz_get` answer as the map on which the same operations were performed. -/
theorem vector_is_map (junk : ℕ → UInt8) (ops : List Op) :
    Returns (ops.foldlM (fun v op => op.perform junk v) .empty) fun v =>
      WellFormed v ∧ ∃ es, Is v es ∧ (es.map nameOf).Nodup ∧ ∀ name : CString,
        let known := ops.foldl Op.onMap .empty (nameOf name.bytes)
        Returns (envzEntry v name.object 0) (EntryAnswer es (nameOf name.bytes) known) ∧
        Returns (envzGet v name.object 0) (GetAnswer v known) := by
  apply (represents_empty.run junk ops).mono
  rintro v ⟨es, h⟩
  exact ⟨h.is.wellFormed, es, h.is, h.distinct, fun name => ⟨h.entry name, h.get name⟩⟩

end

end Eglibc.Envz
