import Eglibc.Environ

/-!
# The environment as a finite map

Each call changes the entries of the vector in use, and through them the values of the
names.
-/
namespace Eglibc.Environ
open Checked

section
variable {host : Host} {junk : ℕ → Option ℕ} {w w' : World} {es : List Str} {name : Str}

def Payload.text (name : Str) : Payload → Str
  | .combined s => s
  | .value v => combine name v

structure Grows (w w' : World) : Prop where
  strings : ∃ more, w'.strings = w.strings ++ more
  vectors : w'.vectors = w.vectors
  environ : w'.environ = w.environ
  last : w'.last = w.last

lemma Grows.rfl : Grows w w := ⟨⟨[], by simp⟩, .refl _, .refl _, .refl _⟩

lemma grows_push (w : World) (text : Str) :
    Grows w (w.push text).1 :=
  ⟨⟨[text], .refl _⟩, .refl _, .refl _, .refl _⟩

lemma Grows.store (h : Grows w w') (alloc : Alloc) (p : ℕ) : Grows w (w'.storeValue alloc p) := by
  unfold World.storeValue
  split_ifs
  · exact ⟨h.strings, h.vectors, h.environ, h.last⟩
  · exact h

lemma Grows.points (h : Grows w w') (hp : Points w ptrs es) : Points w' ptrs es := by
  obtain ⟨more, hmore⟩ := h.strings
  apply List.Forall₂.imp _ hp
  intro p e he
  rw [hmore, List.getElem?_append_left (List.getElem?_eq_some_iff.mp he).1, he]

lemma strings_storeValue (alloc : Alloc) (p : ℕ) : (w.storeValue alloc p).strings = w.strings := by
  unfold World.storeValue
  split_ifs <;> rfl

lemma knownValue_some (h : w.knownValue text = some p) : w.strings[p]? = some text := by
  have hp := List.find?_some h
  rw [decide_eq_true_eq, Option.map_eq_some_iff] at hp
  obtain ⟨e, he, hbytes⟩ := hp
  rw [he, Str.ext hbytes]

lemma make_all (host : Host) (w : World) (name : Str) (payload : Payload) :
    ∃ w' p, make host .all w name payload = (w', .made p) ∧ Grows w w' ∧
      w'.strings[p]? = some (payload.text name) := by
  cases payload with
  | combined string => exact ⟨_, _, rfl, grows_push w string, by simp [Payload.text]⟩
  | value value =>
    simp only [make, makeValue, Alloc.all, if_true, Payload.text]
    split_ifs
    · cases h : w.knownValue (combine name value) with
      | some p => exact ⟨w, p, rfl, .rfl, knownValue_some h⟩
      | none =>
        refine ⟨_, _, rfl, (grows_push w _).store _ _, ?_⟩
        rw [strings_storeValue]
        simp [World.push]
    cases h : (w.push (combine name value)).1.knownValue (combine name value) with
    | some p => exact ⟨_, p, rfl, grows_push w _, knownValue_some h⟩
    | none =>
      refine ⟨_, _, rfl, (grows_push w _).store _ _, ?_⟩
      rw [strings_storeValue]
      simp [World.push]

/-- The entries of the environment are in a vector that may be used: the original one, or
the one that has been allocated; no other vector is in use. -/
structure Is (w : World) (es : List Str) : Prop where
  owner : w.last = none ∧ (w.environ = none ∨ w.environ = some 0) ∨
    ∃ b, b ≠ 0 ∧ w.last = some b ∧ w.environ = some b
  none_empty : w.environ = none → es = []
  shows : ∀ b, w.environ = some b → ∃ v, w.vectors[b]? = some (some v) ∧ Shows w v es
  signs : ∀ e ∈ es, equals ∈ e.bytes
  original : ∃ v, w.vectors[0]? = some (some v)
  live : ∀ b v, w.vectors[b]? = some (some v) → b = 0 ∨ w.last = some b

lemma vector_eq (h : w.vectors[b]? = some (some v)) : w.vector b = .ok v := by
  simp [World.vector, h]

lemma Is.live_of_free (h : Is w es) (hlast : w.last = some b) (hv : w.vectors[b]? = some (some v))
    (b' : ℕ) (v' : List (Option ℕ)) (hv' : (w.vectors.set b none)[b']? = some (some v')) : b' = 0 := by
  by_cases heq : b = b'
  · subst heq
    rw [List.getElem?_set_self (List.getElem?_eq_some_iff.mp hv).1] at hv'
    cases hv'
  rw [List.getElem?_set_ne heq] at hv'
  rcases h.live b' v' hv' with h0 | hlast'
  · exact h0
  · rw [hlast] at hlast'
    exact absurd (Option.some.inj hlast') heq

lemma put_eq (u : List (Option ℕ)) (x p : Option ℕ)
    (rest : List (Option ℕ)) (h : w.vectors[b]? = some (some v)) (hv : v = u ++ x :: rest) (hi : i = u.length) :
    w.put b i p = .ok { w with vectors := w.vectors.set b (some (u ++ p :: rest)) } := by
  simp only [World.put, vector_eq h, ok_bind, hv, hi, store_length]

lemma reallocVector_returns (h : Is w es) (junk : ℕ → Option ℕ) :
    ∃ vectors u x y, reallocVector w junk (es.length + 2) =
        .ok ({ w with vectors := vectors ++ [some (u ++ [x, y])] }, w.vectors.length) ∧
      u.length = es.length ∧ vectors.length = w.vectors.length ∧
      vectors[0]? = w.vectors[0]? ∧ (∀ b v, vectors[b]? = some (some v) → b = 0) ∧
      (w.environ = w.last → ∃ ptrs, u = ptrs.map some ∧ Points w ptrs es) := by
  rcases h.owner with ⟨hlast, henv⟩ | ⟨b, hb, hlast, henv⟩
  · refine ⟨w.vectors, (List.range es.length).map junk, junk es.length, junk (es.length + 1), ?_,
      by simp, rfl, rfl, ?_, ?_⟩
    · simp [reallocVector, hlast, List.range_succ]
    · intro b v hv
      simpa [hlast] using h.live b v hv
    · intro heq
      rw [h.none_empty (heq.trans hlast)]
      exact ⟨[], rfl, .nil⟩
  obtain ⟨v, hv, ptrs, rest, rfl, hpoints⟩ := h.shows b henv
  have hlen : ptrs.length = es.length := hpoints.length_eq
  have hnew : ∃ y, (ptrs.map some ++ none :: rest).take (es.length + 2) ++
      ((List.range (es.length + 2)).drop
        ((ptrs.map some ++ none :: rest).take (es.length + 2)).length).map junk =
      ptrs.map some ++ [none, y] := by
    rw [← hlen]
    cases rest with
    | nil =>
      refine ⟨junk (ptrs.length + 1), ?_⟩
      rw [List.take_of_length_le (by simp), List.range_succ, List.drop_left' (by simp)]
      simp
    | cons r rest =>
      refine ⟨r, ?_⟩
      have htake : (ptrs.map some ++ none :: r :: rest).take (ptrs.length + 2) =
          ptrs.map some ++ [none, r] := by
        rw [List.take_append, List.take_of_length_le (by simp), List.length_map,
          Nat.add_sub_cancel_left]
        rfl
      rw [htake]
      simp
  obtain ⟨y, hy⟩ := hnew
  refine ⟨w.vectors.set b none, ptrs.map some, none, y, ?_, by simpa using hlen, by simp, ?_, ?_, ?_⟩
  · simp only [reallocVector, hlast, vector_eq hv, ok_bind, hy]
  · rw [List.getElem?_set_ne hb]
  · exact h.live_of_free hlast hv
  · exact fun _ => ⟨ptrs, rfl, hpoints⟩

lemma copyEntries_returns (howner : w.environ = w.last ∨ ∃ b v, w.environ = some b ∧ b ≠ new ∧
      w.vectors[b]? = some (some v) ∧ Shows w v es)
    (hkept : w.environ = w.last → ∃ ptrs, u = ptrs.map some ∧ Points w ptrs es)
    (hu : u.length = es.length) (hnew : w.vectors[new]? = some (some (u ++ [x, y]))) :
    ∃ ptrs, Points w ptrs es ∧ copyEntries w new es.length =
      .ok { w with vectors := w.vectors.set new (some (ptrs.map some ++ [x, y])) } := by
  unfold copyEntries
  by_cases hsame : w.environ = w.last
  · obtain ⟨ptrs, rfl, hpoints⟩ := hkept hsame
    refine ⟨ptrs, hpoints, ?_⟩
    obtain ⟨hlt, heq⟩ := List.getElem?_eq_some_iff.mp hnew
    simp [if_neg (not_not.mpr hsame), ← heq]
  obtain ⟨b, v, henv, hb, hv, ptrs, rest, rfl, hpoints⟩ := howner.resolve_left hsame
  have hlen : ptrs.length = es.length := hpoints.length_eq
  refine ⟨ptrs, hpoints, ?_⟩
  have hload : loadRange (ptrs.map some ++ none :: rest) 0 es.length = .ok (ptrs.map some) := by
    simpa using loadRange_eq (u := []) (x := ptrs.map some) (v := none :: rest) rfl (by simpa using hlen)
  have hstore : storeRange (u ++ [x, y]) 0 (ptrs.map some) = .ok (ptrs.map some ++ [x, y]) := by
    simpa using storeRange_eq (u := []) (x := ptrs.map some) (y := u) (v := [x, y]) rfl
      (by simp [hu, hlen])
  rw [if_pos hsame, henv]
  simp only [vector_eq hv, ok_bind, hload, vector_eq hnew, hstore]

lemma extend_returns (h : Is w es) (host : Host) (junk : ℕ → Option ℕ) (payload : Payload)
    (hsign : equals ∈ (payload.text name).bytes) :
    ∃ w', extend host .all junk w name payload es.length = .ok (w', 0) ∧
      Is w' (es ++ [payload.text name]) := by
  obtain ⟨vectors, u, x, y, hrealloc, hu, hlen, horiginal, hlive, hkept⟩ :=
    reallocVector_returns h junk
  obtain ⟨w', p, hmake, hgrows, hp⟩ :=
    make_all host { w with vectors := vectors ++ [some (u ++ [x, y])] } name payload
  -- the vectors that stay, whatever the entries of the new one are
  have hnew : ∀ v, (vectors ++ [some v])[w.vectors.length]? = some (some v) := by
    intro v
    simp [← hlen]
  have hset : ∀ v v', (vectors ++ [some v]).set w.vectors.length (some v') = vectors ++ [some v'] := by
    intro v v'
    simp [← hlen]
  have hvectors : w'.vectors = vectors ++ [some (u ++ [x, y])] := hgrows.vectors
  have hlast : w'.last = w.last := hgrows.last
  have henviron : w'.environ = w.environ := hgrows.environ
  have hpoints : ∀ {ptrs}, Points w ptrs es → Points { w' with
      vectors := vectors ++ [some (u ++ [some p, y])] } ptrs es := fun hp => hgrows.points hp
  have howner : w'.environ = w'.last ∨ ∃ b v, w'.environ = some b ∧ b ≠ w.vectors.length ∧
      (vectors ++ [some (u ++ [some p, y])])[b]? = some (some v) ∧
      Shows { w' with vectors := vectors ++ [some (u ++ [some p, y])] } v es := by
    rw [henviron, hlast]
    rcases h.owner with ⟨hl, he | he⟩ | ⟨b, -, hl, he⟩
    · exact .inl (he.trans hl.symm)
    · obtain ⟨v, hv, ptrs, rest, hshow, hp⟩ := h.shows 0 he
      have hpos : 0 < w.vectors.length := (List.getElem?_eq_some_iff.mp hv).1
      refine .inr ⟨0, v, he, hpos.ne, ?_, ptrs, rest, hshow, hpoints hp⟩
      rw [List.getElem?_append_left (hlen ▸ hpos), horiginal, hv]
    · exact .inl (he.trans hl.symm)
  obtain ⟨ptrs, hptrs, hcopy⟩ := copyEntries_returns howner
    (fun hsame => (hkept (by rw [← henviron, ← hlast]; exact hsame)).imp fun ptrs hp =>
      ⟨hp.1, hpoints hp.2⟩) hu (hnew _)
  rw [hset] at hcopy
  rw [extend, if_pos (by rfl), hrealloc, ok_bind]
  dsimp only
  rw [hmake]
  dsimp only
  rw [put_eq u x (some p) [y] (by rw [hvectors]; exact hnew _) rfl hu.symm, ok_bind, hvectors, hset, hcopy,
    ok_bind]
  rw [put_eq (ptrs.map some ++ [some p]) y none [] (hnew _) (by simp) (by simp [hptrs.length_eq]),
    ok_bind]
  rw [hset]
  obtain ⟨v0, hv0⟩ := h.original
  have hpos : 0 < w.vectors.length := (List.getElem?_eq_some_iff.mp hv0).1
  refine ⟨_, rfl, .inr ⟨_, hpos.ne', rfl, rfl⟩, nofun, ?_, ?_, ⟨v0, ?_⟩, ?_⟩
  · rintro b ⟨⟩
    refine ⟨_, hnew _, ptrs ++ [p], [], by simp, ?_⟩
    exact List.rel_append hptrs (.cons hp .nil)
  · intro e he
    rcases List.mem_append.mp he with he | he
    · exact h.signs e he
    · rwa [List.mem_singleton.mp he]
  · rw [List.getElem?_append_left (hlen ▸ hpos), horiginal, hv0]
  · intro b v hv
    rcases Nat.lt_or_ge b vectors.length with hlt | hge
    · rw [List.getElem?_append_left hlt] at hv
      exact .inl (hlive b v hv)
    right
    have hb : b < vectors.length + 1 := by
      have := (List.getElem?_eq_some_iff.mp hv).1
      simpa using this
    dsimp only
    congr 1
    omega

end

structure Name extends Str where
  nonempty : bytes ≠ []
  no_sign : equals ∉ bytes

section
variable {es u u' : List Str} {e : Str} {name n : Name}

lemma takeWhile_sign {name : List UInt8} (hfree : equals ∉ name) (rest : List UInt8) :
    (name ++ equals :: rest).takeWhile (· ≠ equals) = name := by
  rw [List.takeWhile_append_of_pos]
  · simp
  · intro c hc
    simp
    rintro rfl
    exact hfree hc

lemma takeWhile_of_hits (h : hits name.toStr e = true) : e.bytes.takeWhile (· ≠ equals) = name.bytes := by
  obtain ⟨rest, hrest⟩ := of_decide_eq_true h
  rw [← hrest, List.append_assoc]
  exact takeWhile_sign name.no_sign rest

lemma hits_other (h : hits name.toStr e = true) (hne : n.bytes ≠ name.bytes) : hits n.toStr e = false := by
  rw [← Bool.not_eq_true]
  intro h'
  exact hne ((takeWhile_of_hits h').symm.trans (takeWhile_of_hits h))

lemma hits_combine (name : Name) (value : Str) : hits name.toStr (combine name.toStr value) = true := by
  simp [hits, combine]

lemma firstValue_append (u u' : List Str) (n : Str) :
    firstValue (u ++ u') n = (firstValue u n).or (firstValue u' n) := by
  unfold firstValue
  rw [List.find?_append]
  cases u.find? (hits n) <;> rfl

lemma firstValue_cons (e : Str) (u : List Str) (n : Str) : firstValue (e :: u) n =
      if hits n e then some (e.bytes.drop (n.bytes.length + 1)) else firstValue u n := by
  rw [firstValue, List.find?_cons]
  cases hits n e <;> rfl

lemma firstValue_of_other {n : Str} (h : ∀ x ∈ es, hits n x = false) : firstValue es n = none := by
  have hfind : es.find? (hits n) = none := by simpa using h
  rw [firstValue, hfind]
  rfl

lemma firstValue_combine (name : Name) (value : Str) (u : List Str) (n : Name) :
    firstValue (combine name.toStr value :: u) n.toStr =
      if n.bytes = name.bytes then some value.bytes else firstValue u n.toStr := by
  rw [firstValue_cons]
  by_cases hn : n.bytes = name.bytes
  · have heq : n.toStr = name.toStr := Str.ext hn
    rw [heq, if_pos (hits_combine name value)]
    simp [combine]
  · rw [if_neg hn, hits_other (hits_combine name value) hn]
    rfl

lemma firstValue_replace (hu : ∀ x ∈ u, hits name.toStr x = false) (he : hits name.toStr e = true)
    (value : Str) (n : Name) : firstValue (u ++ combine name.toStr value :: u') n.toStr =
      if n.bytes = name.bytes then some value.bytes else firstValue (u ++ e :: u') n.toStr := by
  rw [firstValue_append, firstValue_append, firstValue_combine, firstValue_cons]
  by_cases hn : n.bytes = name.bytes
  · have heq : n.toStr = name.toStr := Str.ext hn
    simp [heq, firstValue_of_other hu]
  · simp [hn, hits_other he hn]

lemma firstValue_push (hes : ∀ x ∈ es, hits name.toStr x = false) (value : Str) (n : Name) :
    firstValue (es ++ [combine name.toStr value]) n.toStr =
      if n.bytes = name.bytes then some value.bytes else firstValue es n.toStr := by
  rw [firstValue_append, firstValue_combine]
  by_cases hn : n.bytes = name.bytes
  · have heq : n.toStr = name.toStr := Str.ext hn
    simp [heq, firstValue_of_other hes]
  · rw [if_neg hn, if_neg hn]
    exact Option.or_none

lemma firstValue_filter (name n : Name) (es : List Str) :
    firstValue (es.filter fun x => !hits name.toStr x) n.toStr =
      if n.bytes = name.bytes then none else firstValue es n.toStr := by
  induction es with
  | nil =>
    simp [firstValue]
  | cons e es ih =>
    by_cases he : hits name.toStr e = true
    · rw [List.filter_cons_of_neg (by simp [he]), ih, firstValue_cons]
      by_cases hn : n.bytes = name.bytes
      · simp [hn]
      · simp [hn, hits_other he hn]
    rw [List.filter_cons_of_pos (by simp [he]), firstValue_cons, firstValue_cons, ih]
    by_cases hn : n.bytes = name.bytes
    · have heq : n.toStr = name.toStr := Str.ext hn
      simp [heq, he]
    · simp [hn]

end

section
variable {w : World} {name : Str} {rest : List (Option ℕ)}

lemma shift_eq (rest : List (Option ℕ)) (ys : List ℕ) (u : List (Option ℕ)) (x : Option ℕ)
    (budget : ℕ) (hb : ys.length < budget) :
    iterate shiftBody budget (u ++ x :: (ys.map some ++ none :: rest), u.length) =
      .ok (u ++ (ys.map some ++ none :: none :: rest)) := by
  obtain _ | budget := budget
  · omega
  induction ys generalizing u x budget with
  | nil =>
    apply iterate_exit
    have hload : load (u ++ x :: (([] : List ℕ).map some ++ none :: rest)) (u.length + 1) = .ok none := by
      simpa using load_length (u ++ [x]) none rest
    simp only [shiftBody, hload, ok_bind, store_length]
    rfl
  | cons y ys ih =>
    have hload : load (u ++ x :: ((y :: ys).map some ++ none :: rest)) (u.length + 1) = .ok (some y) := by
      simpa using load_length (u ++ [x]) (some y) (ys.map some ++ none :: rest)
    have hstep : shiftBody (u ++ x :: ((y :: ys).map some ++ none :: rest), u.length) =
        .ok (.inl (u ++ [some y] ++ some y :: (ys.map some ++ none :: rest), (u ++ [some y]).length)) := by
      simp only [shiftBody, hload, ok_bind, store_length]
      simp
    rw [List.length_cons] at hb
    rw [iterate_next hstep, ← Nat.sub_add_cancel (by omega : 1 ≤ budget),
      ih (u ++ [some y]) (some y) (budget - 1) (by omega)]
    simp

lemma unset_returns (name : Str) (rest : List (Option ℕ)) (hkept : Points w pk kept)
    (htodo : Points w pt todo) (budget : ℕ) (hb : todo.length < budget) :
    ∃ v, iterate (unsetBody w name) budget (pk.map some ++ (pt.map some ++ none :: rest), pk.length) =
        .ok v ∧ Shows w v (kept ++ todo.filter fun x => !hits name x) := by
  obtain _ | budget := budget
  · omega
  induction todo generalizing kept pk pt rest budget with
  | nil =>
    cases htodo
    refine ⟨_, iterate_exit ?_, pk, rest, rfl, by simpa using hkept⟩
    have hload : load (pk.map some ++ (([] : List ℕ).map some ++ none :: rest)) pk.length = .ok none := by
      simpa using load_length (pk.map some) none rest
    simp only [unsetBody, hload, ok_bind]
    rfl
  | cons e todo ih =>
    obtain ⟨p, pt, hp, hleft, rfl⟩ := List.forall₂_cons_right_iff.mp htodo
    rw [List.length_cons] at hb
    have hload : load (pk.map some ++ ((p :: pt).map some ++ none :: rest)) pk.length = .ok (some p) := by
      simpa using load_length (pk.map some) (some p) (pt.map some ++ none :: rest)
    have hpred := Nat.sub_add_cancel (by omega : 1 ≤ budget)
    by_cases he : hits name e = true
    · have hshift : iterate shiftBody ((pk.map some ++ ((p :: pt).map some ++ none :: rest)).length + 1)
          (pk.map some ++ ((p :: pt).map some ++ none :: rest), pk.length) =
          .ok (pk.map some ++ (pt.map some ++ none :: none :: rest)) := by
        have hshift := shift_eq rest pt (pk.map some) (some p)
          ((pk.map some ++ ((p :: pt).map some ++ none :: rest)).length + 1) (by simp; omega)
        simpa using hshift
      have hstep : unsetBody w name (pk.map some ++ ((p :: pt).map some ++ none :: rest), pk.length) =
          .ok (.inl (pk.map some ++ (pt.map some ++ none :: none :: rest), pk.length)) := by
        simp only [unsetBody, hload, ok_bind, string_eq hp, names_eq, he, if_true, hshift]
      rw [iterate_next hstep, List.filter_cons_of_neg (by simp [he]), ← hpred]
      exact ih (none :: rest) hkept hleft (budget - 1) (by omega)
    have hstep : unsetBody w name (pk.map some ++ ((p :: pt).map some ++ none :: rest), pk.length) =
        .ok (.inl ((pk ++ [p]).map some ++ (pt.map some ++ none :: rest), (pk ++ [p]).length)) := by
      simp only [unsetBody, hload, ok_bind, string_eq hp, names_eq, he]
      simp
    rw [iterate_next hstep, List.filter_cons_of_pos (by simp [he]), ← hpred]
    have hkept' : Points w (pk ++ [p]) (kept ++ [e]) := List.rel_append hkept (.cons hp .nil)
    simpa using ih rest hkept' hleft (budget - 1) (by omega)

end

section
variable {w : World} {es : List Str} {name : Name}

abbrev Env := List UInt8 → Option (List UInt8)

def Follows (es : List Str) (m : Env) : Prop := ∀ n : Name, firstValue es n.toStr = m n.bytes

def Represents (w : World) (m : Env) : Prop := ∃ es, Is w es ∧ Follows es m

lemma valid_name (name : Name) : invalid name.toStr = false := by
  simp [invalid, name.nonempty, name.no_sign]

lemma Is.update (h : Is w es)
    (hgrows : Grows w w') (henv : w.environ = some b) (hv : w.vectors[b]? = some (some v))
    (hshows : Shows w' v' es') (hsigns : ∀ e ∈ es', equals ∈ e.bytes) :
    Is { w' with vectors := w'.vectors.set b (some v') } es' := by
  have hlt := (List.getElem?_eq_some_iff.mp hv).1
  have hget : ∀ b', (w.vectors.set b (some v'))[b']? = if b = b' then some (some v') else w.vectors[b']? := by
    intro b'
    rw [List.getElem?_set]
    simp [hlt]
  obtain ⟨v0, hv0⟩ := h.original
  rw [hgrows.vectors]
  constructor
  · rw [hgrows.last, hgrows.environ]
    exact h.owner
  · rw [hgrows.environ, henv]
    exact nofun
  · rw [hgrows.environ, henv]
    rintro b' ⟨⟩
    exact ⟨v', by rw [hget, if_pos rfl], hshows⟩
  · exact hsigns
  · rw [hget]
    split_ifs
    · exact ⟨v', rfl⟩
    · exact ⟨v0, hv0⟩
  · rw [hgrows.last]
    intro b' x hx
    rw [hget] at hx
    split_ifs at hx with hb
    · subst hb
      exact h.live b v hv
    · exact h.live b' x hx

lemma Is.replace (h : Is w (u ++ e :: u')) (hgrows : Grows w w') (henv : w.environ = some b)
    (hp : w'.strings[p]? = some text) (hsign : equals ∈ text.bytes) :
    ∃ w'', w'.put b u.length (some p) = .ok w'' ∧ Is w'' (u ++ text :: u') := by
  obtain ⟨v, hv, ptrs, rest, hvec, hpoints⟩ := h.shows b henv
  obtain ⟨pu, q, pu', rfl, hu, -, hu'⟩ := hpoints.split
  have hlen : pu.length = u.length := hu.length_eq
  rw [List.map_append, List.append_assoc, List.map_cons] at hvec
  refine ⟨_, put_eq (pu.map some) (some q) (some p) (pu'.map some ++ none :: rest)
    (hgrows.vectors ▸ hv) hvec (by simpa using hlen.symm), ?_⟩
  apply h.update hgrows henv hv
  · refine ⟨pu ++ p :: pu', rest, by simp, ?_⟩
    exact List.rel_append (hgrows.points hu) (.cons hp (hgrows.points hu'))
  intro x hx
  have hsigns := h.signs x
  simp at hx hsigns
  rcases hx with hx | rfl | hx
  · exact hsigns (.inl hx)
  · exact hsign
  · exact hsigns (.inr (.inr hx))

lemma equals_mem_combine (name value : Str) : equals ∈ (combine name value).bytes := by
  simp [combine]

lemma addToEnviron_returns (h : Represents w m) (host : Host) (junk : ℕ → Option ℕ)
    (name : Name) (value : Str) (payload : Payload) (replace : Bool)
    (htext : payload.text name.toStr = combine name.toStr value) :
    ∃ w', addToEnviron host .all junk w name.toStr payload replace = .ok (w', 0) ∧
      Represents w' (if replace = true ∨ m name.bytes = none then
        Function.update m name.bytes (some value.bytes) else m) := by
  obtain ⟨es, his, hfollows⟩ := h
  have hsign : equals ∈ (payload.text name.toStr).bytes := htext ▸ equals_mem_combine _ _
  -- the name has no entry yet
  have hpush : (∀ x ∈ es, hits name.toStr x = false) → ∃ w',
      extend host .all junk w name.toStr payload es.length = .ok (w', 0) ∧
      Represents w' (if replace = true ∨ m name.bytes = none then
        Function.update m name.bytes (some value.bytes) else m) := by
    intro hother
    obtain ⟨w', heq, his'⟩ := extend_returns his host junk payload hsign
    have hnone : m name.bytes = none := by rw [← hfollows name, firstValue_of_other hother]
    refine ⟨w', heq, _, his', fun n => ?_⟩
    rw [if_pos (.inr hnone), Function.update_apply, htext, firstValue_push hother, hfollows n]
  unfold addToEnviron
  cases henv : w.environ with
  | none =>
    obtain rfl := his.none_empty henv
    exact hpush (by simp)
  | some b =>
    obtain ⟨v, hv, hshows⟩ := his.shows b henv
    dsimp only
    rw [vector_eq hv, ok_bind]
    rcases findEntry_cases hshows name.toStr with ⟨u, e, u', rfl, hu, he, hfind⟩ | ⟨hother, hfind⟩
    · have hsome : m name.bytes = some (e.bytes.drop (name.bytes.length + 1)) := by
        simp [← hfollows name, firstValue_append, firstValue_of_other hu, firstValue_cons, he]
      rw [hfind, ok_bind]
      cases replace with
      | true =>
        obtain ⟨w', p, hmake, hgrows, hp⟩ := make_all host w name.toStr payload
        obtain ⟨w'', hput, his''⟩ := his.replace hgrows henv hp hsign
        refine ⟨w'', ?_, _, his'', fun n => ?_⟩
        · simp [hmake, hput]
        · rw [if_pos (.inl rfl), Function.update_apply, htext, firstValue_replace hu he, hfollows n]
      | false =>
        refine ⟨w, by simp, _, his, fun n => ?_⟩
        rw [if_neg (by simp [hsome]), hfollows n]
    · rw [hfind, ok_bind]
      exact hpush hother

lemma unsetenv_returns (h : Represents w m) (name : Name) :
    ∃ w', unsetenv w name.toStr = .ok (w', 0) ∧
      Represents w' (Function.update m name.bytes none) := by
  obtain ⟨es, his, hfollows⟩ := h
  have hvalues : Follows (es.filter fun x => !hits name.toStr x) (Function.update m name.bytes none) := by
    intro n
    rw [firstValue_filter, Function.update_apply, hfollows n]
  rw [unsetenv, valid_name, if_neg Bool.false_ne_true]
  cases henv : w.environ with
  | none =>
    obtain rfl := his.none_empty henv
    exact ⟨w, rfl, [], his, hvalues⟩
  | some b =>
    obtain ⟨v, hv, ptrs, rest, rfl, hpoints⟩ := his.shows b henv
    have hnil : Points w [] [] := .nil
    have hlen : ptrs.length = es.length := hpoints.length_eq
    obtain ⟨v', heq, hshows⟩ := unset_returns name.toStr rest hnil hpoints
      ((ptrs.map some ++ none :: rest).length + 1) (by simp; omega)
    rw [List.map_nil, List.nil_append, List.length_nil] at heq
    have hsigns : ∀ x ∈ es.filter fun x => !hits name.toStr x, equals ∈ x.bytes := by
      intro x hx
      exact his.signs x (List.mem_of_mem_filter hx)
    have hnew := his.update .rfl henv hv hshows hsigns
    rw [henv] at hnew
    dsimp only
    rw [vector_eq hv, ok_bind, heq, ok_bind]
    exact ⟨_, rfl, _, hnew, hvalues⟩

lemma clearenv_returns (h : Represents w m) :
    ∃ w', clearenv w = .ok (w', 0) ∧ Represents w' fun _ => none := by
  obtain ⟨es, his, -⟩ := h
  have hvalues : Follows [] fun _ => none := fun _ => rfl
  unfold clearenv
  rcases his.owner with ⟨hlast, henv | henv⟩ | ⟨b, hb, hlast, henv⟩
  · obtain rfl := his.none_empty henv
    simp only [henv]
    exact ⟨w, rfl, [], his, hvalues⟩
  · simp only [henv, hlast]
    refine ⟨_, rfl, [], ⟨.inl ⟨rfl, .inl rfl⟩, fun _ => rfl, nofun, nofun, his.original, ?_⟩, hvalues⟩
    rw [← hlast]
    exact his.live
  · obtain ⟨v, hv, -⟩ := his.shows b henv
    obtain ⟨v0, hv0⟩ := his.original
    simp only [henv, hlast, if_true, World.free, vector_eq hv, ok_bind]
    refine ⟨_, rfl, [], ⟨.inl ⟨rfl, .inl rfl⟩, fun _ => rfl, nofun, nofun, ⟨v0, ?_⟩, ?_⟩, hvalues⟩
    · rw [List.getElem?_set_ne hb, hv0]
    exact fun b' x hx => .inl (his.live_of_free hlast hv b' x hx)

end

inductive Op
  | setenv (name : Name) (value : Str) (replace : Bool)
  | putenv (name : Name) (value : Str)
  | unsetenv (name : Name)
  | clearenv

/-- A call for which every allocation succeeds; new vectors hold arbitrary pointers. -/
def Op.perform (host : Host) (w : World) : Op × (ℕ → Option ℕ) → Run World
  | (.setenv name value replace, junk) =>
    Prod.fst <$> Environ.setenv host .all junk w name.toStr value replace
  | (.putenv name value, junk) =>
    Prod.fst <$> addToEnviron host .all junk w name.toStr (.combined (combine name.toStr value)) true
  | (.unsetenv name, _) => Prod.fst <$> Environ.unsetenv w name.toStr
  | (.clearenv, _) => Prod.fst <$> Environ.clearenv w

def Op.onEnv (m : Env) : Op → Env
  | .setenv name value replace =>
    if replace = true ∨ m name.bytes = none then Function.update m name.bytes (some value.bytes) else m
  | .putenv name value => Function.update m name.bytes (some value.bytes)
  | .unsetenv name => Function.update m name.bytes none
  | .clearenv => fun _ => none

def start (original : List Str) : World :=
  ⟨original, [some ((List.range original.length).map some ++ [none])], [], some 0, none⟩

def firstValues (original : List Str) : Env := fun name =>
  (original.find? fun e => e.bytes.takeWhile (· ≠ equals) = name).map fun e =>
    e.bytes.drop (name.length + 1)

def Leads (w : World) : Option (ℕ × ℕ) → Option (List UInt8) → Prop
  | none, value => value = none
  | some (p, offset), value => ∃ e, w.strings[p]? = some e ∧ offset ≤ e.bytes.length ∧
      value = some (e.bytes.drop offset)

section
variable {w : World} {m : Env}

lemma hits_eq (name : Name) (h : equals ∈ e.bytes) :
    hits name.toStr e = decide (e.bytes.takeWhile (· ≠ equals) = name.bytes) := by
  rw [Bool.eq_iff_iff, decide_eq_true_eq]
  constructor
  · exact takeWhile_of_hits
  · intro hname
    obtain ⟨u, rest, hsplit, hu⟩ := List.eq_append_cons_of_mem h
    rw [hsplit, takeWhile_sign hu] at hname
    simp [hits, hsplit, hname]

lemma start_represents (hsigns : ∀ e ∈ original, equals ∈ e.bytes) :
    Represents (start original) (firstValues original) := by
  refine ⟨original, ⟨.inl ⟨rfl, .inr rfl⟩, nofun, ?_, hsigns, ⟨_, rfl⟩, ?_⟩, ?_⟩
  · rintro b ⟨⟩
    refine ⟨_, rfl, List.range original.length, [], rfl, ?_⟩
    apply List.forall₂_iff_get.mpr
    refine ⟨by simp, fun i hi hi' => ?_⟩
    simp [start, hi']
  · intro b v hv
    have hb := (List.getElem?_eq_some_iff.mp hv).1
    simp [start] at hb
    omega
  · intro n
    unfold firstValue firstValues
    congr 1
    exact List.find?_congr fun e he => hits_eq n (hsigns e he)

lemma Represents.perform (h : Represents w m) (host : Host) (step : Op × (ℕ → Option ℕ)) :
    ∃ w', Op.perform host w step = .ok w' ∧ Represents w' (step.1.onEnv m) := by
  obtain ⟨op, junk⟩ := step
  cases op with
  | setenv name value replace =>
    obtain ⟨w', heq, h'⟩ := addToEnviron_returns h host junk name value (.value value) replace rfl
    refine ⟨w', ?_, h'⟩
    simp only [Op.perform, Environ.setenv, valid_name, heq]
    rfl
  | putenv name value =>
    obtain ⟨w', heq, h'⟩ := addToEnviron_returns h host junk name value
      (.combined (combine name.toStr value)) true rfl
    refine ⟨w', ?_, by simpa [Op.onEnv] using h'⟩
    simp only [Op.perform, heq]
    rfl
  | unsetenv name =>
    obtain ⟨w', heq, h'⟩ := unsetenv_returns h name
    refine ⟨w', ?_, h'⟩
    simp only [Op.perform, heq]
    rfl
  | clearenv =>
    obtain ⟨w', heq, h'⟩ := clearenv_returns h
    refine ⟨w', ?_, h'⟩
    simp only [Op.perform, heq]
    rfl

lemma Represents.run (h : Represents w m) (host : Host) (steps : List (Op × (ℕ → Option ℕ))) :
    ∃ w', steps.foldlM (Op.perform host) w = .ok w' ∧
      Represents w' ((steps.map Prod.fst).foldl Op.onEnv m) := by
  induction steps generalizing w m with
  | nil => exact ⟨w, rfl, h⟩
  | cons step steps ih =>
    obtain ⟨w₁, heq, h₁⟩ := h.perform host step
    obtain ⟨w₂, heq₂, h₂⟩ := ih h₁
    refine ⟨w₂, ?_, h₂⟩
    rwa [List.foldlM_cons, heq]

lemma Represents.getenv (h : Represents w m) (host : Host) (name : Name) :
    ∃ r, Environ.getenv host w name.toStr = .ok r ∧ Leads w r (m name.bytes) := by
  obtain ⟨es, his, hfollows⟩ := h
  cases henv : w.environ with
  | none =>
    obtain rfl := his.none_empty henv
    refine ⟨none, by simp [Environ.getenv, henv], ?_⟩
    rw [← hfollows name]
    rfl
  | some b =>
    obtain ⟨v, hv, hshows⟩ := his.shows b henv
    obtain ⟨r, heq, hanswers⟩ := getenv_returns host henv hv hshows his.signs name.nonempty
    refine ⟨r, heq, ?_⟩
    rw [← hfollows name]
    cases r with
    | none | some found => exact hanswers

end

/-- Over every run of calls, `getenv` gives the values of the finite map; every access of a
vector has been inside one that is in use, and besides the original vector only the block
`last_environ` is. -/
theorem environment_is_map (host : Host) (original : List Str)
    (hsigns : ∀ e ∈ original, equals ∈ e.bytes) (steps : List (Op × (ℕ → Option ℕ))) :
    ∃ w, steps.foldlM (Op.perform host) (start original) = .ok w ∧
      (∀ name : Name, ∃ r, getenv host w name.toStr = .ok r ∧
        Leads w r ((steps.map Prod.fst).foldl Op.onEnv (firstValues original) name.bytes)) ∧
      (w.environ = none ∨ w.environ = some 0 ∨ w.environ = w.last) ∧
      ∀ b v, w.vectors[b]? = some (some v) → b = 0 ∨ w.last = some b := by
  obtain ⟨w, heq, h⟩ := (start_represents hsigns).run host steps
  refine ⟨w, heq, fun name => h.getenv host name, ?_⟩
  obtain ⟨es, his, -⟩ := h
  refine ⟨?_, his.live⟩
  rcases his.owner with ⟨-, henv | henv⟩ | ⟨b, -, hlast, henv⟩
  · exact .inl henv
  · exact .inr (.inl henv)
  · exact .inr (.inr (henv.trans hlast.symm))

/-- Two entries of one name: unsetting it removes both. -/
theorem environment_is_map_twice :
    ∃ w, [(Op.unsetenv ⟨⟨[65], by decide⟩, by decide, by decide⟩, fun _ => none)].foldlM
        (Op.perform ⟨false, fun _ => true⟩)
        (start [⟨[65, 61, 49], by decide⟩, ⟨[65, 61, 50], by decide⟩]) = .ok w ∧
      getenv ⟨false, fun _ => true⟩ w ⟨[65], by decide⟩ = .ok none := by
  obtain ⟨w, heq, hget, -⟩ := environment_is_map ⟨false, fun _ => true⟩
    [⟨[65, 61, 49], by decide⟩, ⟨[65, 61, 50], by decide⟩] (by decide)
    [(Op.unsetenv ⟨⟨[65], by decide⟩, by decide, by decide⟩, fun _ => none)]
  obtain ⟨r, hr, hleads⟩ := hget ⟨⟨[65], by decide⟩, by decide, by decide⟩
  refine ⟨w, heq, ?_⟩
  rw [hr]
  cases r with
  | none => rfl
  | some found =>
    obtain ⟨e, -, -, h⟩ := hleads
    cases h

end Eglibc.Environ
