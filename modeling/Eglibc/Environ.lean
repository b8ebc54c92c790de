import Eglibc.Segments

/-!
# The environment

Model of `stdlib/setenv.c` and `stdlib/getenv.c`. Strings and vectors have numbers for
addresses; none is used twice, and a freed vector cannot be accessed. The search tree of
known values is a list of strings, looked up by their bytes. Memory that has not been
written holds arbitrary pointers, and each allocation may fail.
-/
namespace Eglibc.Environ
open Checked Segments

def equals : UInt8 := 61

@[ext] structure Str where
  bytes : List UInt8
  nul_free : 0 ∉ bytes

def Str.object (s : Str) : List UInt8 := s.bytes ++ [0]

/-- What depends on the host: the byte order of the comparison of two bytes, and which
sizes `alloca` is used for. -/
structure Host where
  bigEndian : Bool
  useAlloca : ℕ → Bool

/-- Which allocations of a call succeed: the vector, the buffer that replaces `alloca`, the
string and the node of the search tree. -/
structure Alloc where
  vector : Bool
  buffer : Bool
  string : Bool
  node : Bool

def Alloc.all : Alloc := ⟨true, true, true, true⟩

/-- The strings, the vectors (or that they have been freed), `known_values`, `__environ`
and `last_environ`. -/
structure World where
  strings : List Str
  vectors : List (Option (List (Option ℕ)))
  known : List ℕ
  environ : Option ℕ
  last : Option ℕ

def World.vector (w : World) (b : ℕ) : Run (List (Option ℕ)) :=
  match w.vectors[b]? with
  | some (some v) => .ok v
  | _ => .error (.read b)

def World.string (w : World) (p : ℕ) : Run Str := load w.strings p

def World.push (w : World) (text : Str) : World × ℕ :=
  ({ w with strings := w.strings ++ [text] }, w.strings.length)

def strncmpEqual (xs : List UInt8) (i : ℕ) (ys : List UInt8) (j : ℕ) : ℕ → Run Bool
  | 0 => .ok true
  | n + 1 => do
      let a ← load xs i
      let b ← load ys j
      if a ≠ b then .ok false else if a = 0 then .ok true
      else strncmpEqual xs (i + 1) ys (j + 1) n

/-- `!strncmp (*ep, name, namelen) && (*ep)[namelen] == '='` -/
def names (entry name : Str) : Run Bool := do
  let same ← strncmpEqual entry.object 0 name.object 0 name.bytes.length
  if same then do
    let c ← load entry.object name.bytes.length
    .ok (c = equals)
  else .ok false

def findBody (w : World) (v : List (Option ℕ)) (name : Str) (i : ℕ) : Run (ℕ ⊕ ℕ × Bool) := do
  match ← load v i with
  | none => .ok (.inr (i, false))
  | some p => do
      let entry ← w.string p
      if ← names entry name then .ok (.inr (i, true)) else .ok (.inl (i + 1))

def findEntry (w : World) (v : List (Option ℕ)) (name : Str) : Run (ℕ × Bool) :=
  iterate (findBody w v name) (v.length + 1) 0

/-- `NAME=VALUE` -/
def combine (name value : Str) : Str :=
  ⟨name.bytes ++ equals :: value.bytes, by
    have hname := name.nul_free
    have hvalue := value.nul_free
    simp_all [equals]⟩

inductive Payload
  | combined (string : Str)
  | value (value : Str)

inductive Made
  | made (p : ℕ)
  | noBuffer
  | noString

def World.knownValue (w : World) (text : Str) : Option ℕ :=
  w.known.find? fun p => (w.strings[p]?.map Str.bytes) = some text.bytes

def World.storeValue (w : World) (alloc : Alloc) (p : ℕ) : World :=
  if alloc.node then { w with known := w.known ++ [p] } else w

def makeValue (host : Host) (alloc : Alloc) (w : World) (name value : Str) : World × Made :=
  let text := combine name value
  if host.useAlloca (name.bytes.length + 1 + (value.bytes.length + 1)) then
    match w.knownValue text with
    | some p => (w, .made p)
    | none =>
      if alloc.string then
        let (w, p) := w.push text
        (w.storeValue alloc p, .made p)
      else (w, .noString)
  else if alloc.buffer then
    let (w, p) := w.push text
    match w.knownValue text with
    | some known => (w, .made known)
    | none => (w.storeValue alloc p, .made p)
  else (w, .noBuffer)

def make (host : Host) (alloc : Alloc) (w : World) (name : Str) : Payload → World × Made
  | .combined string => let (w, p) := w.push string; (w, .made p)
  | .value value => makeValue host alloc w name value

/-- `realloc (last_environ, n * sizeof (char *))` -/
def reallocVector (w : World) (junk : ℕ → Option ℕ) (n : ℕ) : Run (World × ℕ) := do
  match w.last with
  | none =>
      .ok ({ w with vectors := w.vectors ++ [some ((List.range n).map junk)] }, w.vectors.length)
  | some b => do
      let old ← w.vector b
      let new := old.take n ++ ((List.range n).drop (old.take n).length).map junk
      .ok ({ w with vectors := w.vectors.set b none ++ [some new] }, w.vectors.length)

def World.put (w : World) (b i : ℕ) (p : Option ℕ) : Run World := do
  let v ← w.vector b
  let v ← store v i p
  .ok { w with vectors := w.vectors.set b (some v) }

def World.free (w : World) (b : ℕ) : Run World := do
  let _ ← w.vector b
  .ok { w with vectors := w.vectors.set b none }

/-- `memcpy` of the entries of the old vector, unless `realloc` has moved them. -/
def copyEntries (w : World) (new size : ℕ) : Run World :=
  if w.environ ≠ w.last then
    match w.environ with
    | none => if size = 0 then .ok w else .error (.read 0)
    | some b => do
        let v ← w.vector b
        let entries ← loadRange v 0 size
        let n ← w.vector new
        let n ← storeRange n 0 entries
        .ok { w with vectors := w.vectors.set new (some n) }
  else .ok w

def extend (host : Host) (alloc : Alloc) (junk : ℕ → Option ℕ) (w : World) (name : Str)
    (payload : Payload) (size : ℕ) : Run (World × ℤ) := do
  if alloc.vector then do
    let (w, new) ← reallocVector w junk (size + 2)
    match make host alloc w name payload with
    | (w, .noBuffer) => do
        if w.last = none then do
          let w ← w.free new
          .ok (w, -1)
        else .ok (w, -1)
    | (w, .noString) => .ok (w, -1)
    | (w, .made p) => do
        let w ← w.put new size (some p)
        let w ← copyEntries w new size
        let w ← w.put new (size + 1) none
        .ok ({ w with environ := some new, last := some new }, 0)
  else .ok (w, -1)

def addToEnviron (host : Host) (alloc : Alloc) (junk : ℕ → Option ℕ) (w : World) (name : Str)
    (payload : Payload) (replace : Bool) : Run (World × ℤ) := do
  match w.environ with
  | none => extend host alloc junk w name payload 0
  | some b => do
      let v ← w.vector b
      let (i, found) ← findEntry w v name
      if !found then extend host alloc junk w name payload i
      else if replace then
        match make host alloc w name payload with
        | (w, .made p) => do
            let w ← w.put b i (some p)
            .ok (w, 0)
        | (w, _) => .ok (w, -1)
      else .ok (w, 0)

/-- `name == NULL || *name == '\0' || strchr (name, '=') != NULL` -/
def invalid (name : Str) : Bool := name.bytes = [] || equals ∈ name.bytes

def setenv (host : Host) (alloc : Alloc) (junk : ℕ → Option ℕ) (w : World) (name value : Str)
    (replace : Bool) : Run (World × ℤ) :=
  if invalid name then .ok (w, -1)
  else addToEnviron host alloc junk w name (.value value) replace

/-- `do dp[0] = dp[1]; while (*dp++);` -/
def shiftBody (s : List (Option ℕ) × ℕ) : Run (List (Option ℕ) × ℕ ⊕ List (Option ℕ)) := do
  let (v, dp) := s
  let p ← load v (dp + 1)
  let v ← store v dp p
  if p.isSome then .ok (.inl (v, dp + 1)) else .ok (.inr v)

/-- The loop of `unsetenv`: an entry of the name is removed by moving the later ones back. -/
def unsetBody (w : World) (name : Str) (s : List (Option ℕ) × ℕ) :
    Run (List (Option ℕ) × ℕ ⊕ List (Option ℕ)) := do
  let (v, ep) := s
  match ← load v ep with
  | none => .ok (.inr v)
  | some p => do
      let entry ← w.string p
      if ← names entry name then do
        let v ← iterate shiftBody (v.length + 1) (v, ep)
        .ok (.inl (v, ep))
      else .ok (.inl (v, ep + 1))

def unsetenv (w : World) (name : Str) : Run (World × ℤ) := do
  if invalid name then .ok (w, -1)
  else
    match w.environ with
    | none => .ok (w, 0)
    | some b => do
        let v ← w.vector b
        let v ← iterate (unsetBody w name) (v.length + 1) (v, 0)
        .ok ({ w with vectors := w.vectors.set b (some v) }, 0)

def clearenv (w : World) : Run (World × ℤ) := do
  match w.environ with
  | none => .ok (w, 0)
  | some b =>
      if w.last = some b then do
        let w ← w.free b
        .ok ({ w with environ := none, last := none }, 0)
      else .ok ({ w with environ := none }, 0)

/-- The value of the two bytes as a `uint16_t`. -/
def pair (host : Host) (a b : UInt8) : ℕ :=
  if host.bigEndian then a.toNat * 256 + b.toNat else a.toNat + b.toNat * 256

/-- The loop of `getenv` for a name of one character. -/
def getShortBody (host : Host) (w : World) (v : List (Option ℕ)) (c : UInt8) (ep : ℕ) :
    Run (ℕ ⊕ Option (ℕ × ℕ)) := do
  match ← load v ep with
  | none => .ok (.inr none)
  | some p => do
      let entry ← w.string p
      let a ← load entry.object 0
      let b ← load entry.object 1
      if pair host c equals = pair host a b then .ok (.inr (some (p, 2))) else .ok (.inl (ep + 1))

/-- The loop of `getenv` for a longer name: the first two characters at once, then the
others. -/
def getLongBody (host : Host) (w : World) (v : List (Option ℕ)) (name : Str) (start : ℕ)
    (ep : ℕ) : Run (ℕ ⊕ Option (ℕ × ℕ)) := do
  match ← load v ep with
  | none => .ok (.inr none)
  | some p => do
      let entry ← w.string p
      let a ← load entry.object 0
      let b ← load entry.object 1
      let len := name.bytes.length - 2
      if start = pair host a b then
        if ← strncmpEqual entry.object 2 name.object 2 len then do
          let c ← load entry.object (len + 2)
          if c = equals then .ok (.inr (some (p, len + 3))) else .ok (.inl (ep + 1))
        else .ok (.inl (ep + 1))
      else .ok (.inl (ep + 1))

/-- `getenv`: the address and the offset in the string. -/
def getenv (host : Host) (w : World) (name : Str) : Run (Option (ℕ × ℕ)) := do
  match w.environ with
  | none => .ok none
  | some b => do
      let c0 ← load name.object 0
      if c0 = 0 then .ok none
      else do
        let c1 ← load name.object 1
        let v ← w.vector b
        if c1 = 0 then iterate (getShortBody host w v c0) (v.length + 1) 0
        else iterate (getLongBody host w v name (pair host c0 c1)) (v.length + 1) 0

def hits (name entry : Str) : Bool := name.bytes ++ [equals] <+: entry.bytes

def firstValue (es : List Str) (name : Str) : Option (List UInt8) :=
  (es.find? (hits name)).map fun e => e.bytes.drop (name.bytes.length + 1)

section
variable {xs ys e m : List UInt8} {i j : ℕ}

lemma strncmpEqual_eq (hx : Holds xs i (e ++ [0])) (hy : Holds ys j (m ++ [0])) (hm : 0 ∉ m) :
    strncmpEqual xs i ys j m.length = .ok (m <+: e) := by
  induction m generalizing i j e with
  | nil => simp [strncmpEqual]
  | cons c m ih =>
    have hc : c ≠ 0 := fun h => hm (by simp [h])
    cases e with
    | nil => simp [strncmpEqual, hx.load, hy.load, hc.symm]
    | cons d e =>
      rw [List.length_cons, strncmpEqual, hx.load, ok_bind, hy.load, ok_bind]
      by_cases h : d = c
      · subst h
        simp [hc, ih (holds_cons.mp hx).2 (holds_cons.mp hy).2 (fun h => hm (List.mem_cons_of_mem _ h))]
      · simp [h, Ne.symm h]

lemma holds_object (s : Str) : Holds s.object 0 (s.bytes ++ [0]) := by
  intro j _
  rw [Nat.zero_add]
  rfl

lemma load_behind (hx : Holds xs i (m ++ e ++ [0])) (hk : k = i + m.length) :
    load xs k = .ok (e.headD 0) := by
  rw [List.append_assoc, holds_append, ← hk] at hx
  cases e with
  | nil | cons c e => exact hx.2.load

lemma head_eq_iff (m e : List UInt8) : e.headD 0 = equals ↔ m ++ [equals] <+: m ++ e := by
  rw [List.prefix_append_right_inj]
  cases e with
  | nil => simp [equals]
  | cons c e => simp [eq_comm]

lemma names_eq (entry name : Str) : names entry name = .ok (hits name entry) := by
  rw [names, strncmpEqual_eq (holds_object entry) (holds_object name) name.nul_free, ok_bind]
  by_cases h : name.bytes <+: entry.bytes
  · obtain ⟨rest, hrest⟩ := h
    have hload : load entry.object name.bytes.length = .ok (rest.headD 0) :=
      load_behind (hrest ▸ holds_object entry) (Nat.zero_add _).symm
    rw [if_pos (by simp [← hrest]), hload, ok_bind, hits, ← hrest]
    exact congrArg _ (decide_eq_decide.mpr (head_eq_iff _ _))
  · have hnot : ¬ name.bytes ++ [equals] <+: entry.bytes := fun h' =>
      h ((List.prefix_append _ _).trans h')
    simp [h, hits, hnot]

end

section
variable {w : World} {v : List (Option ℕ)} {ptrs : List ℕ} {es : List Str} {name : Str}

def Points (w : World) (ptrs : List ℕ) (es : List Str) : Prop :=
  List.Forall₂ (fun p e => w.strings[p]? = some e) ptrs es

def Shows (w : World) (v : List (Option ℕ)) (es : List Str) : Prop :=
  ∃ ptrs rest, v = ptrs.map some ++ none :: rest ∧ Points w ptrs es

lemma Points.split (h : Points w ptrs (u ++ e :: u')) :
    ∃ pu p pu', ptrs = pu ++ p :: pu' ∧ Points w pu u ∧ w.strings[p]? = some e ∧ Points w pu' u' := by
  have hu := List.forall₂_take_append _ _ _ h
  have hrest := List.forall₂_drop_append _ _ _ h
  obtain ⟨p, pu', hp, hu', hdrop⟩ := List.forall₂_cons_right_iff.mp hrest
  exact ⟨_, p, pu', by rw [← hdrop, List.take_append_drop], hu, hp, hu'⟩

lemma load_length {α : Type} (u : List α) (a : α) (rest : List α) :
    load (u ++ a :: rest) u.length = .ok a := by
  simp [load]

lemma store_length {α : Type} (u : List α) (a b : α) (rest : List α) :
    store (u ++ a :: rest) u.length b = .ok (u ++ b :: rest) := by
  simp [store]

lemma entries_cases (name : Str) (es : List Str) :
    (∃ u e u', es = u ++ e :: u' ∧ (∀ x ∈ u, hits name x = false) ∧ hits name e = true) ∨
      ∀ x ∈ es, hits name x = false := by
  cases h : es.find? (hits name) with
  | none =>
    right
    simpa using h
  | some e =>
    left
    obtain ⟨he, u, u', rfl, hu⟩ := List.find?_eq_some_iff_append.mp h
    exact ⟨u, e, u', rfl, by simpa using hu, he⟩

lemma scan_reaches {ρ : Type} {body : ℕ → Run (ℕ ⊕ ρ)} (hpoints : Points w ptrs es)
    (hother : ∀ x ∈ es, hits name x = false) {tail : List (Option ℕ)}
    (hv : v = ptrs.map some ++ tail)
    (hnext : ∀ i p e, load v i = .ok (some p) → w.strings[p]? = some e → e ∈ es →
      hits name e = false → body i = .ok (.inl (i + 1))) :
    Reaches body ptrs.length 0 ptrs.length := by
  have hholds : Holds v 0 (ptrs.map some) := by
    intro j hj
    rw [hv, Nat.zero_add, List.getElem?_append_left hj]
  have hreach : Reaches body (ptrs.map some).length 0 (0 + (ptrs.map some).length) := by
    apply hholds.scan (P := fun a => ∃ p e, a = some p ∧ w.strings[p]? = some e ∧ e ∈ es)
    · intro a ha
      obtain ⟨p, hp, rfl⟩ := List.mem_map.mp ha
      obtain ⟨k, hk, rfl⟩ := List.getElem_of_mem hp
      have hlen := hpoints.length_eq
      exact ⟨_, es[k], rfl, (List.forall₂_iff_get.mp hpoints).2 k hk (by omega), List.getElem_mem _⟩
    · rintro i a hload ⟨p, e, rfl, hp, he⟩
      exact hnext i p e hload hp he (hother e he)
  simpa using hreach

lemma scan_result {ρ : Type} (name : Str) (body : ℕ → Run (ℕ ⊕ ρ)) (stop : ℕ → ρ)
    (found : ℕ → ℕ → ρ) (hshows : Shows w v es)
    (hnone : ∀ i, load v i = .ok none → body i = .ok (.inr (stop i)))
    (hsome : ∀ i p e, load v i = .ok (some p) → w.strings[p]? = some e → e ∈ es →
      body i = .ok (if hits name e then .inr (found p i) else .inl (i + 1))) :
    (∃ u e u' p, es = u ++ e :: u' ∧ (∀ x ∈ u, hits name x = false) ∧ hits name e = true ∧
        w.strings[p]? = some e ∧ iterate body (v.length + 1) 0 = .ok (found p u.length)) ∨
      (∀ x ∈ es, hits name x = false) ∧ iterate body (v.length + 1) 0 = .ok (stop es.length) := by
  obtain ⟨ptrs, rest, hv, hpoints⟩ := hshows
  rcases entries_cases name es with ⟨u, e, u', rfl, hu, he⟩ | hother
  · left
    obtain ⟨pu, p, pu', rfl, hu', hp, -⟩ := hpoints.split
    have hlen : pu.length = u.length := hu'.length_eq
    rw [List.map_append, List.append_assoc, List.map_cons] at hv
    have hload : load v pu.length = .ok (some p) := by
      rw [hv, List.cons_append]
      simpa using load_length (pu.map some) (some p) (pu'.map some ++ none :: rest)
    have hreach : Reaches body pu.length 0 pu.length :=
      scan_reaches hu' hu hv fun i p e hl hp he hh => by
        rw [hsome i p e hl hp (List.mem_append_left _ he), hh]
        rfl
    refine ⟨u, e, u', p, rfl, hu, he, hp, ?_⟩
    rw [← hlen]
    refine hreach.exit ?_ ?_
    · rw [hsome _ p e hload hp (by simp), he]
      rfl
    · rw [hv]
      simp
  right
  have hlen : ptrs.length = es.length := hpoints.length_eq
  have hreach : Reaches body ptrs.length 0 ptrs.length :=
    scan_reaches hpoints hother hv fun i p e hl hp he hh => by
      rw [hsome i p e hl hp he, hh]
      rfl
  refine ⟨hother, ?_⟩
  rw [← hlen]
  refine hreach.exit (hnone _ ?_) ?_
  · rw [hv]
    simpa using load_length (ptrs.map some) none rest
  · rw [hv]
    simp

end

section
variable {host : Host} {w : World} {v : List (Option ℕ)} {es : List Str} {name : Str}

lemma string_eq (h : w.strings[p]? = some e) : w.string p = .ok e := by
  simp [World.string, load, h]

lemma findEntry_cases (hshows : Shows w v es) (name : Str) :
    (∃ u e u', es = u ++ e :: u' ∧ (∀ x ∈ u, hits name x = false) ∧ hits name e = true ∧
        findEntry w v name = .ok (u.length, true)) ∨
      (∀ x ∈ es, hits name x = false) ∧ findEntry w v name = .ok (es.length, false) := by
  have hcases := scan_result name (findBody w v name) (fun i => (i, false)) (fun _ i => (i, true))
    hshows ?_ ?_
  · rcases hcases with ⟨u, e, u', p, hes, hu, he, -, hfind⟩ | hcases
    · exact .inl ⟨u, e, u', hes, hu, he, hfind⟩
    · exact .inr hcases
  · intro i hload
    simp [findBody, hload]
  · intro i p e hload hp _
    simp only [findBody, hload, ok_bind, string_eq hp, names_eq]
    split_ifs <;> rfl

lemma pair_eq_iff (host : Host) (a b c d : UInt8) :
    pair host a b = pair host c d ↔ a = c ∧ b = d := by
  have ha := a.toNat_lt
  have hb := b.toNat_lt
  have hc := c.toNat_lt
  have hd := d.toNat_lt
  rw [← UInt8.toNat_inj, ← UInt8.toNat_inj]
  unfold pair
  split_ifs <;> omega

def Answers (w : World) (es : List Str) (name : Str) : Option (ℕ × ℕ) → Prop
  | none => firstValue es name = none
  | some (p, offset) => ∃ e, w.strings[p]? = some e ∧ offset ≤ e.bytes.length ∧
      firstValue es name = some (e.bytes.drop offset)

lemma hits_length (h : hits name e = true) : name.bytes.length + 1 ≤ e.bytes.length := by
  have := (of_decide_eq_true h).length_le
  simpa using this

lemma get_answers (hshows : Shows w v es)
    (hnone : ∀ i, load v i = .ok none → body i = .ok (.inr none))
    (hsome : ∀ i p e, load v i = .ok (some p) → w.strings[p]? = some e → e ∈ es →
      body i = .ok (if hits name e then .inr (some (p, name.bytes.length + 1)) else .inl (i + 1))) :
    Returns (iterate body (v.length + 1) 0) (Answers w es name) := by
  rcases scan_result name body (fun _ => none) (fun p _ => some (p, name.bytes.length + 1)) hshows
    hnone hsome with ⟨u, e, u', p, rfl, hu, he, hp, heq⟩ | ⟨hother, heq⟩
  · refine ⟨_, heq, e, hp, hits_length he, ?_⟩
    have hfind : (u ++ e :: u').find? (hits name) = some e :=
      List.find?_eq_some_iff_append.mpr ⟨he, u, u', rfl, by simpa using hu⟩
    rw [firstValue, hfind]
    rfl
  refine ⟨_, heq, ?_⟩
  have hfind : es.find? (hits name) = none := by simpa using hother
  rw [Answers, firstValue, hfind]
  rfl

lemma first_two {e : Str} (h : equals ∈ e.bytes) :
    ∃ a b, load e.object 0 = .ok a ∧ load e.object 1 = .ok b ∧
      ∀ c d, d ≠ 0 → (c = a ∧ d = b ↔ [c, d] <+: e.bytes) := by
  unfold Str.object
  match hbytes : e.bytes with
  | [] => simp [hbytes] at h
  | [a] => exact ⟨a, 0, rfl, rfl, fun c d hd => by simp [hd]⟩
  | a :: b :: rest => exact ⟨a, b, rfl, rfl, fun c d hd => by simp⟩

lemma getShort_answers (hshows : Shows w v es) (hsigns : ∀ e ∈ es, equals ∈ e.bytes) {c : UInt8}
    (hname : name.bytes = [c]) :
    Returns (iterate (getShortBody host w v c) (v.length + 1) 0) (Answers w es name) := by
  apply get_answers hshows
  · intro i hload
    simp [getShortBody, hload]
  intro i p e hload hp he
  obtain ⟨a, b, ha, hb, htwo⟩ := first_two (hsigns e he)
  have hhits : hits name e = decide (pair host c equals = pair host a b) := by
    rw [hits, decide_eq_decide, hname, pair_eq_iff]
    exact (htwo c equals (by decide)).symm
  simp only [getShortBody, hload, ok_bind, string_eq hp, ha, hb, hhits, hname, decide_eq_true_eq]
  split_ifs <;> rfl

lemma getLong_answers (hshows : Shows w v es) (hsigns : ∀ e ∈ es, equals ∈ e.bytes) {c d : UInt8}
    {m : List UInt8} (hname : name.bytes = c :: d :: m) :
    Returns (iterate (getLongBody host w v name (pair host c d)) (v.length + 1) 0)
      (Answers w es name) := by
  have hfree := name.nul_free
  rw [hname] at hfree
  have hd : d ≠ 0 := fun h => hfree (by simp [h])
  have hrest : Holds name.object 2 (m ++ [0]) := by
    have hholds := holds_object name
    rw [hname] at hholds
    exact (holds_cons.mp (holds_cons.mp hholds).2).2
  apply get_answers hshows
  · intro i hload
    simp [getLongBody, hload]
  intro i p e hload hp he
  obtain ⟨a, b, ha, hb, htwo⟩ := first_two (hsigns e he)
  simp only [getLongBody, hload, ok_bind, string_eq hp, ha, hb, pair_eq_iff, htwo c d hd]
  by_cases htwice : [c, d] <+: e.bytes
  · obtain ⟨e', he'⟩ := htwice
    have hholds : Holds e.object 2 (e' ++ [0]) := by
      have hholds := holds_object e
      rw [← he'] at hholds
      exact (holds_cons.mp (holds_cons.mp hholds).2).2
    have hlen : name.bytes.length - 2 = m.length := by simp [hname]
    have hhits : hits name e = decide (m ++ [equals] <+: e') := by
      rw [hits, decide_eq_decide, hname, ← he']
      simp
    rw [if_pos ⟨e', he'⟩, hlen, strncmpEqual_eq hholds hrest (by simp_all), ok_bind]
    by_cases hm : m <+: e'
    · obtain ⟨e'', rfl⟩ := hm
      rw [if_pos (by simp), load_behind hholds (Nat.add_comm _ _), ok_bind, hhits, hname]
      simp only [← head_eq_iff, decide_eq_true_eq, List.length_cons]
      split_ifs <;> rfl
    have hnot : hits name e = false := by
      rw [hhits, decide_eq_false_iff_not]
      exact fun h => hm ((List.prefix_append _ _).trans h)
    rw [if_neg (by simpa using hm), hnot]
    rfl
  have hnot : hits name e = false := by
    rw [hits, decide_eq_false_iff_not, hname]
    intro h
    exact htwice (List.IsPrefix.trans (by simp) h)
  rw [if_neg htwice, hnot]
  rfl

lemma getenv_returns (host : Host) (hw : w.environ = some b)
    (hb : w.vectors[b]? = some (some v)) (hshows : Shows w v es)
    (hsigns : ∀ e ∈ es, equals ∈ e.bytes) (hname : name.bytes ≠ []) :
    Returns (getenv host w name) (Answers w es name) := by
  have hvector : w.vector b = .ok v := by simp [World.vector, hb]
  have hfree := name.nul_free
  rw [getenv, hw]
  dsimp only
  match hbytes : name.bytes with
  | [] => exact absurd hbytes hname
  | [c] =>
    rw [hbytes] at hfree
    have hc : c ≠ 0 := fun h => hfree (by simp [h])
    have h0 : load name.object 0 = .ok c := by simp [load, Str.object, hbytes]
    have h1 : load name.object 1 = .ok 0 := by simp [load, Str.object, hbytes]
    rw [h0, ok_bind, if_neg hc, h1, ok_bind, hvector, ok_bind, if_pos rfl]
    exact getShort_answers hshows hsigns hbytes
  | c :: d :: m =>
    rw [hbytes] at hfree
    have hc : c ≠ 0 := fun h => hfree (by simp [h])
    have hd : d ≠ 0 := fun h => hfree (by simp [h])
    have h0 : load name.object 0 = .ok c := by simp [load, Str.object, hbytes]
    have h1 : load name.object 1 = .ok d := by simp [load, Str.object, hbytes]
    rw [h0, ok_bind, if_neg hc, h1, ok_bind, hvector, ok_bind, if_neg hd]
    exact getLong_answers hshows hsigns hbytes

end

end Eglibc.Environ
