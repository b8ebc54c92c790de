import Eglibc.Realpath

/-!
# The loop of `__realpath`

Each pass of the loop takes one step of a resolution in which the targets of links are cut
to `PATH_MAX - 1` bytes.
-/
namespace Eglibc.Realpath
open Checked Segments FileWords

variable {p : List (List UInt8)} {rpath : List UInt8}

structure Proper (c : List UInt8) : Prop where
  ne_nil : c ≠ []
  ne_dot : c ≠ [46]
  ne_dots : c ≠ [46, 46]
  slash : 47 ∉ c
  nul : 0 ∉ c

def trail (p : List (List UInt8)) : List UInt8 := p.flatMap fun c => 47 :: c

section

variable {p : List (List UInt8)} {c : List UInt8}

lemma trail_append (p : List (List UInt8)) (c : List UInt8) :
    trail (p ++ [c]) = trail p ++ [47] ++ c := by
  simp [trail]

lemma render_append (p : List (List UInt8)) (c : List UInt8) :
    render (p ++ [c]) = trail p ++ [47] ++ c := by
  rw [render, if_neg (by simp), ← trail, trail_append]

lemma render_eq (h : p ≠ []) : render p = trail p := if_neg h

def Front (p : List (List UInt8)) (f : List UInt8) : Prop := f = render p ∨ f = trail p ++ [47]

lemma Front.cases {f : List UInt8} (h : Front p f) :
    (p ≠ [] ∧ f = trail p) ∨ f = trail p ++ [47] := by
  obtain rfl | rfl := h
  · by_cases hp : p = []
    · subst hp
      exact .inr rfl
    · exact .inl ⟨hp, render_eq hp⟩
  · exact .inr rfl

lemma trail_last (hp : p ≠ []) (hproper : ∀ c ∈ p, Proper c) :
    ∃ u a, trail p = u ++ [a] ∧ a ≠ 47 ∧ u ≠ [] := by
  obtain ⟨q, c, rfl⟩ := (List.eq_nil_or_concat p).resolve_left hp
  have hc : Proper c := hproper c (by simp)
  obtain ⟨v, a, rfl⟩ := (List.eq_nil_or_concat c).resolve_left hc.ne_nil
  refine ⟨trail q ++ [47] ++ v, a, ?_, ?_, by simp⟩
  · simp [trail_append]
  · rintro rfl
    exact hc.slash (by simp)

lemma trail_noNul (hp : ∀ c ∈ p, Proper c) : 0 ∉ trail p := by
  intro h
  obtain ⟨c, hc, h0⟩ := List.mem_flatMap.mp h
  obtain h0 | h0 := List.mem_cons.mp h0
  · exact absurd h0 (by decide)
  · exact (hp c hc).nul h0

lemma render_noNul (hp : ∀ c ∈ p, Proper c) : 0 ∉ render p := by
  unfold render
  split_ifs
  · decide
  · exact trail_noNul hp

end

/-! ## Searches -/

section

variable {xs ys : List UInt8} {a : UInt8} {i : ℕ}

lemma scan_eq {stop : UInt8 → Bool} (h : Holds xs i (ys ++ [a])) (hys : ∀ y ∈ ys, stop y = false)
    (ha : stop a = true) : scan stop xs i = .ok (i + ys.length) := by
  have hle := h.le_length (by simp)
  rw [List.length_append, List.length_singleton] at hle
  obtain ⟨hfront, hend⟩ := holds_append.mp h
  have hreach : Reaches (scanBody stop xs) ys.length i (i + ys.length) :=
    hfront.scan hys fun j y hj hy => by
      rw [scanBody, hj, ok_bind, hy]
      rfl
  refine hreach.exit ?_ (by omega)
  rw [scanBody, hend.load, ok_bind, if_pos ha]

lemma lastByte_eq {dest : ℕ} (h : Holds xs 0 (ys ++ [a])) (hd : dest = (ys ++ [a]).length) :
    lastByte xs dest = .ok a := by
  have hload := (holds_append.mp h).2.load
  rw [Nat.zero_add] at hload
  simp [lastByte, hd, hload]

lemma iterate_back {u v : List UInt8} (hu : Holds xs 0 (u ++ [47] ++ v)) (hv : 47 ∉ v) {j budget : ℕ}
    (hj : j ≤ v.length) (hb : j < budget) :
    iterate (backBody xs) budget (u.length + 1 + (j + 1)) = .ok (u.length + 1) := by
  induction j generalizing budget with
  | zero =>
    obtain _ | budget := budget
    · omega
    have hload : load xs u.length = .ok 47 := by
      have h := (holds_append.mp (holds_append.mp hu).1).2
      rw [Nat.zero_add] at h
      exact h.load
    refine iterate_exit ?_
    simp [backBody, show u.length + 1 + (0 + 1) - 2 = u.length by omega, hload]
  | succ j ih =>
    obtain _ | budget := budget
    · omega
    have hjv : j < v.length := by omega
    have hload : load xs (u.length + 1 + j) = .ok v[j] := by
      have h := (holds_append.mp hu).2 j hjv
      rw [Nat.zero_add, List.length_append, List.length_singleton,
        List.getElem?_eq_getElem hjv] at h
      rw [load, h]
    have hne : v[j] ≠ 47 := fun h => hv (h ▸ List.getElem_mem hjv)
    have hbody : backBody xs (u.length + 1 + (j + 1 + 1)) = .ok (.inl (u.length + 1 + (j + 1))) := by
      rw [backBody, if_neg (by omega),
        show u.length + 1 + (j + 1 + 1) - 2 = u.length + 1 + j by omega, hload, ok_bind, if_pos hne]
      rfl
    rw [iterate_next hbody, ih (by omega) (by omega)]

end

/-! ## Components -/

section

variable {rest : List UInt8}

def slashes (rest : List UInt8) : List UInt8 := rest.takeWhile (· = 47)

lemma rest_split (rest : List UInt8) :
    rest = slashes rest ++ (firstName rest ++ afterFirst rest) := by
  simp [slashes, firstName, afterFirst]

lemma mem_slashes {a : UInt8} (h : a ∈ slashes rest) : a = 47 := by
  simpa using List.mem_takeWhile_imp h

lemma slash_notMem_firstName (rest : List UInt8) : 47 ∉ firstName rest := by
  intro h
  simpa using List.mem_takeWhile_imp h

lemma firstName_sublist (rest : List UInt8) : (firstName rest).Sublist rest :=
  (List.takeWhile_sublist _).trans (List.dropWhile_sublist _)

lemma afterFirst_sublist (rest : List UInt8) : (afterFirst rest).Sublist rest :=
  (List.dropWhile_sublist _).trans (List.dropWhile_sublist _)

lemma dropWhile_cases (p : UInt8 → Bool) (xs : List UInt8) :
    xs.dropWhile p = [] ∨ ∃ a tl, xs.dropWhile p = a :: tl ∧ p a = false := by
  cases h : xs.dropWhile p with
  | nil => exact .inl rfl
  | cons a tl =>
    have hhead := List.head?_dropWhile_not p xs
    rw [h] at hhead
    exact .inr ⟨a, tl, rfl, hhead⟩

lemma afterFirst_cases (rest : List UInt8) :
    afterFirst rest = [] ∨ ∃ tl, afterFirst rest = 47 :: tl := by
  obtain h | ⟨a, tl, h, ha⟩ := dropWhile_cases (· ≠ 47) (rest.dropWhile (· = 47))
  · exact .inl h
  · obtain rfl : a = 47 := by simpa using ha
    exact .inr ⟨tl, h⟩

lemma dropSlashes_cases (rest : List UInt8) : firstName rest ++ afterFirst rest = [] ∨
      ∃ a tl, firstName rest ++ afterFirst rest = a :: tl ∧ a ≠ 47 := by
  rw [firstName, afterFirst, List.takeWhile_append_dropWhile]
  simpa using dropWhile_cases (· = 47) rest

lemma length_afterFirst (h : firstName rest ≠ []) : (afterFirst rest).length < rest.length := by
  have hlen := congrArg List.length (rest_split rest)
  have hpos := List.length_pos_iff.mpr h
  simp at hlen
  omega

end

/-! ## One pass -/

lemma Node.locate_append (n : Node) (p q : List (List UInt8)) :
    n.locate (p ++ q) = (n.locate p).bind fun m => m.locate q := by
  induction p generalizing n with
  | nil => rfl
  | cons c p ih =>
    rw [List.cons_append, Node.locate, Node.locate, Option.bind_assoc]
    congr 1
    funext m
    exact ih m

lemma Node.locate_directory {root m : Node} {c : List UInt8}
    (h : root.locate (p ++ [c]) = some m) : ∃ entries, root.locate p = some (.directory entries) := by
  rw [Node.locate_append] at h
  obtain ⟨n, hn, hm⟩ := Option.bind_eq_some_iff.mp h
  cases n with
  | directory entries => exact ⟨entries, hn⟩
  | file | link t => cases hm

lemma Node.locate_dropLast {root : Node} {entries : List (List UInt8 × Node)}
    (h : root.locate p = some (.directory entries)) :
    ∃ entries, root.locate p.dropLast = some (.directory entries) := by
  obtain rfl | ⟨q, c, rfl⟩ := List.eq_nil_or_concat p
  · exact ⟨entries, h⟩
  · rw [List.concat_eq_append] at h ⊢
    rw [List.dropLast_concat]
    exact Node.locate_directory h

structure Serves (root : Node) (cwd : List (List UInt8)) (k : Kernel) : Prop where
  getcwd : k.getcwd = render cwd
  lstat : ∀ p c entries, (∀ d ∈ p ++ [c], Proper d) → root.locate p = some (.directory entries) →
    k.lstat (render (p ++ [c])) = match root.locate (p ++ [c]) with
      | none => .error .ENOENT
      | some n => .ok n.type
  readlink : ∀ p t, (∀ d ∈ p, Proper d) → root.locate p = some (.link t) →
    k.readlink (render p) = .ok t

def NulFree (root : Node) : Prop := ∀ p t, root.locate p = some (.link t) → 0 ∉ t

section

variable (lim : Limits) (root : Node) (resolved : Bool) (name : List UInt8)

structure Represents (s : State) (w : Walk) : Prop where
  front : ∃ f, Front w.place f ∧ s.dest = f.length ∧ Holds s.rpath 0 f
  room : s.dest < s.rpath.length
  size : lim.pathMax ≤ s.rpath.length
  caller : resolved → s.rpath.length = lim.pathMax
  extra : s.extraBuf.length = lim.pathMax
  source : Holds (s.source name) s.stop (w.rest ++ [0])
  links : s.numLinks = w.links
  noNul : 0 ∉ w.rest
  proper : ∀ c ∈ w.place, Proper c
  reached : ∃ n, root.locate w.place = some n ∧
    ((∃ entries, n = .directory entries) ∨ n = .file ∧ w.rest = [])

def Matches (r : Outcome (List UInt8)) : Outcome (List (List UInt8)) → Prop
  | .ok p => ∃ buf, r = .ok buf ∧ Holds buf 0 (render p ++ [0])
  | .error e => r = .error e

def Simulates (out : State ⊕ Outcome (List UInt8)) : Walk ⊕ Outcome (List (List UInt8)) → Prop
  | .inl w => ∃ s, out = .inl s ∧ Represents lim root resolved name s w
  | .inr o => ∃ r, out = .inr r ∧ Matches r o

end

section

variable {lim : Limits} {root : Node} {resolved : Bool} {name : List UInt8} {s : State} {w : Walk}
  {kernel : Kernel} {junk : ℕ → UInt8} {cwd : List (List UInt8)}

lemma length_fresh (junk : ℕ → UInt8) (n : ℕ) : (fresh junk n).length = n := by simp [fresh]

lemma backUp_eq {f : List UInt8} (hproper : ∀ c ∈ p, Proper c)
    (hf : Front p f) (hholds : Holds rpath 0 f) :
    ∃ f', Front p.dropLast f' ∧ backUp rpath f.length = .ok f'.length ∧ Holds rpath 0 f' ∧
      f'.length ≤ f.length := by
  obtain rfl | ⟨q, c, rfl⟩ := List.eq_nil_or_concat p
  · have hf' : f = [47] := by
      obtain rfl | rfl := hf
      · rfl
      · rfl
    subst hf'
    exact ⟨[47], .inl rfl, rfl, hholds, le_rfl⟩
  rw [List.concat_eq_append] at hproper hf ⊢
  have hc : Proper c := hproper c (by simp)
  have hpos := List.length_pos_iff.mpr hc.ne_nil
  rw [List.dropLast_concat]
  -- with or without a separator at the end
  have hcases : Holds rpath 0 (trail q ++ [47] ++ c) ∧ (f.length = (trail q).length + 1 + c.length ∨
      f.length = (trail q).length + 1 + (c.length + 1)) := by
    obtain ⟨-, rfl⟩ | rfl := hf.cases
    · rw [trail_append] at hholds ⊢
      exact ⟨hholds, .inl (by simp; omega)⟩
    · rw [trail_append] at hholds ⊢
      exact ⟨(holds_append.mp hholds).1, .inr (by simp; omega)⟩
  obtain ⟨hh, hd⟩ := hcases
  obtain ⟨j, hj, hdj⟩ : ∃ j ≤ c.length, f.length = (trail q).length + 1 + (j + 1) := by
    obtain hd | hd := hd
    · exact ⟨c.length - 1, by omega, by omega⟩
    · exact ⟨c.length, le_rfl, hd⟩
  refine ⟨trail q ++ [47], .inr rfl, ?_, (holds_append.mp hh).1, ?_⟩
  · rw [backUp, if_pos (by omega), hdj, iterate_back hh hc.slash hj (by omega)]
    simp
  · simp
    omega

lemma Represents.trim (h : Represents lim root resolved name s w) :
    trimSlash s.rpath s.dest = .ok (render w.place).length ∧ Holds s.rpath 0 (render w.place) ∧
      (render w.place).length ≤ s.dest := by
  obtain ⟨f, hf, hdest, hholds⟩ := h.front
  rw [trimSlash]
  obtain ⟨hne, rfl⟩ | rfl := hf.cases
  · obtain ⟨u, a, hu, ha, hune⟩ := trail_last hne h.proper
    rw [hu] at hdest hholds
    have hpos : s.dest > 1 := by
      have := List.length_pos_iff.mpr hune
      simp [hdest]
      omega
    rw [if_pos hpos, lastByte_eq hholds hdest, ok_bind, if_neg ha, render_eq hne, hu, hdest]
    exact ⟨rfl, hholds, le_rfl⟩
  by_cases hne : w.place = []
  · rw [hne] at hdest hholds ⊢
    rw [if_neg (by rw [hdest]; decide), hdest]
    exact ⟨rfl, hholds, le_rfl⟩
  obtain ⟨u, a, hu, -, -⟩ := trail_last hne h.proper
  have hlen : s.dest = (trail w.place).length + 1 := by
    simp [hdest]
  have hpos : s.dest > 1 := by
    simp [hlen, hu]
  rw [if_pos hpos, lastByte_eq hholds hdest, ok_bind, if_pos rfl, render_eq hne, hlen]
  exact ⟨rfl, (holds_append.mp hholds).1, Nat.le_succ _⟩

lemma Represents.finish (h : Represents lim root resolved name s w) :
    ∃ buf, finish s = .ok (.inr (.ok buf)) ∧ Holds buf 0 (render w.place ++ [0]) := by
  obtain ⟨htrim, hrender, hle⟩ := h.trim
  have hroom := h.room
  obtain ⟨buf, hbuf, hw⟩ := store_returns (a := 0)
    (show (render w.place).length < s.rpath.length by omega)
  refine ⟨buf, ?_, hw.extend hrender (Nat.zero_add _)⟩
  rw [Realpath.finish, htrim, ok_bind, hbuf, ok_bind]

lemma Represents.addSlash (h : Represents lim root resolved name s w) :
    ∃ rpath, addSlash s.rpath s.dest = .ok (rpath, (trail w.place).length + 1) ∧
      Holds rpath 0 (trail w.place ++ [47]) ∧ rpath.length = s.rpath.length ∧
      (trail w.place).length + 1 ≤ rpath.length := by
  obtain ⟨f, hf, hdest, hholds⟩ := h.front
  have hroom := h.room
  rw [Realpath.addSlash]
  obtain ⟨hne, rfl⟩ | rfl := hf.cases
  · obtain ⟨u, a, hu, ha, -⟩ := trail_last hne h.proper
    have hlast := lastByte_eq (hu ▸ hholds) (hu ▸ hdest)
    obtain ⟨rpath, hr, hw⟩ := store_returns (a := 47) hroom
    rw [hlast, ok_bind, if_pos ha, hr, ok_bind, hdest]
    exact ⟨rpath, rfl, hw.extend hholds (by simp [hdest]), hw.length_eq,
      by rw [hw.length_eq, ← hdest]; exact hroom⟩
  have hlen : s.dest = (trail w.place).length + 1 := by
    simp [hdest]
  rw [lastByte_eq hholds hdest, ok_bind, if_neg (by decide), hlen]
  exact ⟨s.rpath, rfl, hholds, rfl, by omega⟩

lemma makeRoom_eq (junk : ℕ → UInt8) {dest : ℕ} (len : ℕ) (hdest : 0 < dest) (hle : dest ≤ rpath.length)
    (hsize : lim.pathMax ≤ rpath.length) (hcaller : resolved → rpath.length = lim.pathMax) :
    if resolved = true ∧ lim.pathMax ≤ dest + len then
      makeRoom lim junk resolved rpath dest len = .ok (.error .ENAMETOOLONG)
    else ∃ rpath', makeRoom lim junk resolved rpath dest len = .ok (.ok rpath') ∧
      dest + len < rpath'.length ∧ AgreeBelow dest rpath rpath' ∧ lim.pathMax ≤ rpath'.length ∧
      (resolved → rpath'.length = lim.pathMax) := by
  have h2 := lim.two_le
  unfold makeRoom
  cases resolved with
  | true =>
    have hlen := hcaller rfl
    by_cases hbig : lim.pathMax ≤ dest + len
    · rw [if_pos ⟨rfl, hbig⟩, if_pos (by omega), if_pos rfl,
        store_eq (show (if dest > 1 then dest - 1 else dest) < rpath.length by split_ifs <;> omega)]
      rfl
    · rw [if_neg (fun h => hbig h.2), if_neg (by omega)]
      exact ⟨rpath, rfl, by omega, AgreeBelow.rfl, hsize, hcaller⟩
  | false =>
    rw [if_neg (by simp)]
    by_cases hbig : dest + len ≥ rpath.length
    · rw [if_pos hbig, if_neg (by decide)]
      refine ⟨_, rfl, ?_, ?_, ?_, nofun⟩
      · rw [List.length_append, length_fresh]
        split_ifs <;> omega
      · intro j hj
        rw [List.getElem?_append_left (by omega)]
      · simp
        omega
    · rw [if_neg hbig]
      exact ⟨rpath, rfl, by omega, AgreeBelow.rfl, hsize, nofun⟩

structure Arrived (lim : Limits) (resolved : Bool) (name : List UInt8) (w : Walk) (s : State) :
    Prop where
  path : Holds s.rpath 0 (render (w.place ++ [firstName w.rest]) ++ [0])
  dest : s.dest = (render (w.place ++ [firstName w.rest])).length
  size : lim.pathMax ≤ s.rpath.length
  caller : resolved → s.rpath.length = lim.pathMax
  extra : s.extraBuf.length = lim.pathMax
  source : Holds (s.source name) s.stop (afterFirst w.rest ++ [0])
  links : s.numLinks = w.links

lemma Arrived.room (h : Arrived lim resolved name w s) : s.dest < s.rpath.length := by
  have hle := h.path.le_length (by simp)
  rw [List.length_append, List.length_singleton, ← h.dest] at hle
  omega

lemma Arrived.represents (h : Arrived lim resolved name w s) (hnul : 0 ∉ w.rest)
    (hproper : ∀ c ∈ w.place ++ [firstName w.rest], Proper c) {n : Node}
    (hn : root.locate (w.place ++ [firstName w.rest]) = some n)
    (hkind : (∃ entries, n = .directory entries) ∨ n = .file ∧ afterFirst w.rest = []) :
    Represents lim root resolved name s
      { w with place := w.place ++ [firstName w.rest], rest := afterFirst w.rest } where
  front := ⟨_, .inl rfl, h.dest, (holds_append.mp h.path).1⟩
  room := h.room
  size := h.size
  caller := h.caller
  extra := h.extra
  source := h.source
  links := h.links
  noNul := fun h0 => hnul ((afterFirst_sublist _).subset h0)
  proper := hproper
  reached := ⟨n, hn, hkind⟩

lemma holds_root (h : Holds rpath 0 (render p)) : Holds rpath 0 [47] := by
  cases p with
  | nil => exact h
  | cons c p =>
    rw [render_eq (List.cons_ne_nil c p), trail, List.flatMap_cons, List.cons_append,
      holds_cons] at h
    exact holds_cons.mpr ⟨h.1, holds_nil⟩

lemma linkBase_eq {c : List UInt8} (first : UInt8)
    (hproper : ∀ d ∈ p ++ [c], Proper d) (hpath : Holds rpath 0 (render (p ++ [c]))) :
    ∃ f, linkBase rpath (render (p ++ [c])).length first = .ok f.length ∧
      Front (if first = 47 then [] else p) f ∧ Holds rpath 0 f ∧
      f.length ≤ (render (p ++ [c])).length := by
  unfold linkBase
  by_cases hfirst : first = 47
  · rw [if_pos hfirst, if_pos hfirst]
    refine ⟨[47], rfl, .inl rfl, holds_root hpath, ?_⟩
    simp [render_append]
    omega
  obtain ⟨f, hf, hback, hholds, hle⟩ := backUp_eq hproper (.inl rfl) hpath
  rw [List.dropLast_concat] at hf
  simpa [hfirst] using ⟨f, hback, hf, hholds, hle⟩

lemma Arrived.followLink (h : Arrived lim resolved name w s) (hroot : ∃ entries, root = .directory entries)
    (hdir : ∃ entries, root.locate w.place = some (.directory entries)) (hnul : 0 ∉ w.rest)
    (hproper : ∀ c ∈ w.place ++ [firstName w.rest], Proper c) {t path : List UInt8} (ht : 0 ∉ t)
    (hread : kernel.readlink path = .ok t) :
    Returns (followLink lim kernel junk name path s) fun out =>
      Simulates lim root resolved name out (w.follow lim (List.take (lim.pathMax - 1)) t) := by
  have h2 := lim.two_le
  have hroom := h.room
  unfold Realpath.followLink Walk.follow
  rw [h.links]
  by_cases hloop : lim.eloopThreshold < w.links + 1
  · simpa [hloop] using returns_ok ⟨_, rfl, rfl⟩
  rw [if_neg hloop, if_neg hloop, hread]
  dsimp only
  set tt := t.take (lim.pathMax - 1) with htt
  set rest := afterFirst w.rest
  have hn : min t.length (lim.pathMax - 1) = tt.length := by
    rw [htt, List.length_take, Nat.min_comm]
  have htake : t.take tt.length = tt := by
    simp [htt]
  have httnul : 0 ∉ tt := fun h0 => ht (List.mem_of_mem_take h0)
  have hrestnul : 0 ∉ rest := fun h0 => hnul ((afterFirst_sublist _).subset h0)
  rw [hn, htake]
  -- the link is read
  obtain ⟨buf1, hbuf1, hw1⟩ := storeRange_returns
    (show 0 + tt.length ≤ (fresh junk lim.pathMax).length by rw [length_fresh]; omega)
  obtain ⟨buf, hbuf, hw⟩ := store_returns (a := 0)
    (show tt.length < buf1.length by rw [hw1.length_eq, length_fresh]; omega)
  have hbufholds : Holds buf 0 (tt ++ [0]) := hw.extend hw1.holds (Nat.zero_add _)
  rw [hbuf1, ok_bind, hbuf, ok_bind]
  have hscan : scan (· = 0) (s.source name) s.stop = .ok (s.stop + rest.length) := by
    refine scan_eq h.source (fun y hy => ?_) (by decide)
    have hne : y ≠ 0 := fun h0 => hrestnul (h0 ▸ hy)
    simpa using hne
  rw [hscan, ok_bind, Nat.add_sub_cancel_left]
  by_cases hlong : lim.pathMax ≤ tt.length + rest.length
  · simpa [hlong] using returns_ok ⟨_, rfl, rfl⟩
  rw [if_neg hlong, if_neg hlong]
  -- the rest of the name is moved before the target is copied
  rw [h.source.loadRange (by simp) (by rw [List.length_append]; rfl), ok_bind]
  obtain ⟨extra1, hextra1, hwe1⟩ := storeRange_returns
    (show tt.length + (rest ++ [0]).length ≤ s.extraBuf.length by
      rw [h.extra, List.length_append, List.length_singleton]; omega)
  obtain ⟨extra, hextra, hwe⟩ := storeRange_overwrites
    (show 0 + tt.length ≤ extra1.length by rw [hwe1.length_eq, h.extra]; omega)
  have hfront : loadRange buf 0 tt.length = .ok tt := by
    have hle := hbufholds.le_length (by simp)
    rw [List.length_append] at hle
    rw [loadRange, if_pos (by omega), (holds_append.mp hbufholds).1.take_drop]
  have hextraholds : Holds extra 0 (tt ++ rest ++ [0]) := by
    rw [List.append_assoc, holds_append, Nat.zero_add]
    exact ⟨hwe.holds, hwe.keeps hwe1.holds (by omega)⟩
  rw [hextra1, ok_bind, hfront, ok_bind, hextra, ok_bind]
  have hextralen : extra.length = lim.pathMax := by rw [hwe.length_eq, hwe1.length_eq, h.extra]
  have hall : 0 ∉ tt ++ rest := by
    rw [List.mem_append]
    exact fun h0 => h0.elim httnul hrestnul
  -- the base of the link
  obtain ⟨first, hload, hfirst⟩ : ∃ first, load buf 0 = .ok first ∧
      (first = 47 ↔ tt.head? = some 47) := by
    revert hbufholds
    cases tt with
    | nil => exact fun hb => ⟨0, hb.load, by decide⟩
    | cons a tl => exact fun hb => ⟨a, hb.load, by simp⟩
  obtain ⟨f, hbase, hf, hholds, hle⟩ := linkBase_eq first hproper (holds_append.mp h.path).1
  rw [hload, ok_bind, h.dest, hbase, ok_bind]
  have hplace : (if first = 47 then [] else w.place) = if tt.head? = some 47 then [] else w.place :=
    if_congr hfirst rfl rfl
  rw [hplace] at hf
  obtain ⟨entries, hlocate⟩ : ∃ entries,
      root.locate (if tt.head? = some 47 then [] else w.place) = some (.directory entries) := by
    split_ifs
    · obtain ⟨entries, rfl⟩ := hroot
      exact ⟨entries, rfl⟩
    · exact hdir
  refine returns_ok ⟨_, rfl, ?_⟩
  refine ⟨⟨f, hf, rfl, hholds⟩, ?_, h.size, h.caller, hextralen, hextraholds, rfl, hall, ?_, _, hlocate,
    .inl ⟨entries, rfl⟩⟩
  · dsimp only
    rw [h.dest] at hroom
    omega
  · intro c hc
    split_ifs at hc
    · cases hc
    · exact hproper c (List.mem_append_left _ hc)

lemma Arrived.visit (hserves : Serves root cwd kernel) (hfree : NulFree root)
    (h : Arrived lim resolved name w s) (hroot : ∃ entries, root = .directory entries)
    (hdir : ∃ entries, root.locate w.place = some (.directory entries)) (hnul : 0 ∉ w.rest)
    (hproper : ∀ c ∈ w.place ++ [firstName w.rest], Proper c)
    (hfits : ¬ (resolved = true ∧ lim.pathMax ≤ (render (w.place ++ [firstName w.rest])).length)) :
    Returns (visit lim kernel junk name s) fun out =>
      Simulates lim root resolved name out
        (w.step lim root resolved (List.take (lim.pathMax - 1))) := by
  obtain ⟨entries, hdir'⟩ := hdir
  have hc : Proper (firstName w.rest) := hproper _ (by simp)
  rw [Realpath.visit, text_eq h.path (render_noNul hproper), ok_bind,
    hserves.lstat w.place _ entries hproper hdir', Walk.step, if_neg hc.ne_nil,
    if_neg hc.ne_dot, if_neg hc.ne_dots, if_neg hfits]
  cases hn : root.locate (w.place ++ [firstName w.rest]) with
  | none => exact returns_ok ⟨_, rfl, rfl⟩
  | some n =>
    cases n with
    | directory es =>
      exact returns_ok ⟨s, rfl, h.represents hnul hproper hn (.inl ⟨es, rfl⟩)⟩
    | link t =>
      exact h.followLink hroot ⟨entries, hdir'⟩ hnul hproper (hfree _ _ hn)
        (hserves.readlink _ _ hproper hn)
    | file =>
      have hsource := h.source
      obtain hnil | ⟨tl, hcons⟩ := afterFirst_cases w.rest
      · rw [hnil, List.nil_append] at hsource
        rw [hsource.load, ok_bind, if_neg (by decide), if_pos hnil]
        exact returns_ok ⟨s, rfl, h.represents hnul hproper hn (.inr ⟨rfl, hnil⟩)⟩
      · rw [hcons, List.cons_append] at hsource
        rw [hsource.load, ok_bind, if_pos (by decide), if_neg (by rw [hcons]; simp)]
        exact returns_ok ⟨_, rfl, rfl⟩

lemma Represents.enter (hserves : Serves root cwd kernel) (hfree : NulFree root)
    (h : Represents lim root resolved name s w) (hroot : ∃ entries, root = .directory entries)
    (hc : Proper (firstName w.rest)) {start : ℕ}
    (hstart : Holds (s.source name) start (firstName w.rest ++ (afterFirst w.rest ++ [0]))) :
    Returns (enter lim kernel junk resolved name start (start + (firstName w.rest).length) s)
      fun out => Simulates lim root resolved name out
        (w.step lim root resolved (List.take (lim.pathMax - 1))) := by
  obtain ⟨rpath, hslash, hpath, hlen, hle⟩ := h.addSlash
  obtain ⟨hcomp, hafter⟩ := holds_append.mp hstart
  have hproper : ∀ c ∈ w.place ++ [firstName w.rest], Proper c :=
    List.forall_mem_append.mpr ⟨h.proper, List.forall_mem_singleton.mpr hc⟩
  have hdir : ∃ entries, root.locate w.place = some (.directory entries) := by
    obtain ⟨n, hn, ⟨entries, rfl⟩ | ⟨-, hnil⟩⟩ := h.reached
    · exact ⟨entries, hn⟩
    · rw [hnil] at hc
      exact absurd rfl hc.ne_nil
  have hrender : (render (w.place ++ [firstName w.rest])).length
      = (trail w.place).length + 1 + (firstName w.rest).length := by
    rw [render_append]
    simp only [List.length_append, List.length_singleton]
  have hroom := makeRoom_eq junk (firstName w.rest).length (Nat.succ_pos _) hle
    (hlen ▸ h.size) (fun hr => hlen ▸ h.caller hr)
  rw [Realpath.enter, hslash, ok_bind]
  dsimp only
  rw [Nat.add_sub_cancel_left]
  rw [← hrender] at hroom
  by_cases hlong : resolved = true ∧ lim.pathMax ≤ (render (w.place ++ [firstName w.rest])).length
  · rw [if_pos hlong] at hroom
    rw [hroom, ok_bind, Walk.step]
    rw [if_neg hc.ne_nil, if_neg hc.ne_dot, if_neg hc.ne_dots, if_pos hlong]
    exact returns_ok ⟨_, rfl, rfl⟩
  rw [if_neg hlong] at hroom
  obtain ⟨rpath1, hmake, hfit, hagree, hsize, hcaller⟩ := hroom
  rw [hrender] at hfit
  obtain ⟨rpath2, hr2, hw2⟩ := storeRange_returns
    (show (trail w.place).length + 1 + (firstName w.rest).length ≤ rpath1.length by omega)
  obtain ⟨rpath3, hr3, hw3⟩ := store_returns (a := 0)
    (show (trail w.place).length + 1 + (firstName w.rest).length < rpath2.length by
      rw [hw2.length_eq]; exact hfit)
  rw [hmake, ok_bind, hcomp.loadRange hc.ne_nil rfl]
  dsimp only
  rw [ok_bind, hr2, ok_bind, hr3, ok_bind]
  refine Arrived.visit hserves hfree ⟨?_, hrender.symm, ?_, ?_, h.extra, hafter, h.links⟩ hroot hdir
    h.noNul hproper hlong
  · rw [render_append]
    have hfront : Holds rpath1 0 (trail w.place ++ [47]) := hpath.agree hagree (by simp)
    exact hw3.extend (hw2.extend hfront (by simp)) (by simp; omega)
  · rwa [hw3.length_eq, hw2.length_eq]
  · intro hr
    rw [hw3.length_eq, hw2.length_eq]
    exact hcaller hr

lemma component_simulates (junk : ℕ → UInt8) (hserves : Serves root cwd kernel) (hfree : NulFree root)
    (h : Represents lim root resolved name s w) (hroot : ∃ entries, root = .directory entries) :
    Returns (component lim kernel junk resolved name s) fun out =>
      Simulates lim root resolved name out
        (w.step lim root resolved (List.take (lim.pathMax - 1))) := by
  have hsource := h.source
  have hnul := h.noNul
  obtain ⟨buf, hfinish, hbuf⟩ := h.finish
  by_cases hrest : w.rest = []
  · rw [hrest, List.nil_append] at hsource
    have hstep : w.step lim root resolved (List.take (lim.pathMax - 1)) = .inr (.ok w.place) := by
      rw [Walk.step, hrest]
      exact if_pos rfl
    rw [component, hsource.load, ok_bind, if_pos rfl, hfinish, hstep]
    exact returns_ok ⟨_, rfl, buf, rfl, hbuf⟩
  -- the name goes on
  obtain ⟨a, tl, hcons⟩ := List.exists_cons_of_ne_nil hrest
  have hload : load (s.source name) s.stop = .ok a := by
    rw [hcons] at hsource
    exact hsource.load
  have ha : a ≠ 0 := by
    rintro rfl
    exact hnul (by rw [hcons]; exact List.mem_cons_self)
  have hsplit := rest_split w.rest
  have hall : Holds (s.source name) s.stop
      (slashes w.rest ++ (firstName w.rest ++ (afterFirst w.rest ++ [0]))) := by
    rwa [← List.append_assoc (firstName w.rest), ← List.append_assoc, ← hsplit]
  obtain ⟨hslashes, hbehind⟩ := holds_append.mp hall
  set start := s.stop + (slashes w.rest).length with hstart
  have hscan₁ : scan (· ≠ 47) (s.source name) s.stop = .ok start := by
    obtain ⟨b, tl', hb, hne⟩ : ∃ b tl', firstName w.rest ++ (afterFirst w.rest ++ [0]) = b :: tl' ∧
        b ≠ 47 := by
      rw [← List.append_assoc]
      obtain hnil | ⟨b, tl', hb, hne⟩ := dropSlashes_cases w.rest
      · exact ⟨0, [], by rw [hnil]; rfl, by decide⟩
      · exact ⟨b, tl' ++ [0], by rw [hb]; rfl, hne⟩
    rw [hb, List.append_cons] at hall
    refine scan_eq (holds_append.mp hall).1 (fun y hy => ?_) (by simpa using hne)
    rw [mem_slashes hy]
    decide
  have hscan₂ : scan (fun c => c = 0 ∨ c = 47) (s.source name) start
      = .ok (start + (firstName w.rest).length) := by
    obtain ⟨b, tl', hb, hor⟩ : ∃ b tl', afterFirst w.rest ++ [0] = b :: tl' ∧ (b = 0 ∨ b = 47) := by
      obtain hnil | ⟨tl', hb⟩ := afterFirst_cases w.rest
      · exact ⟨0, [], by rw [hnil]; rfl, .inl rfl⟩
      · exact ⟨47, tl' ++ [0], by rw [hb]; rfl, .inr rfl⟩
    rw [hb, List.append_cons] at hbehind
    refine scan_eq (holds_append.mp hbehind).1 (fun y hy => ?_) (by simpa using hor)
    have h0 : y ≠ 0 := fun h0 => hnul ((firstName_sublist _).subset (h0 ▸ hy))
    have h47 : y ≠ 47 := fun h47 => slash_notMem_firstName w.rest (h47 ▸ hy)
    simpa using ⟨h0, h47⟩
  have hpart : loadRange (s.source name) start (start + (firstName w.rest).length - start)
      = .ok (firstName w.rest) := by
    have hle := hbehind.le_length (by simp)
    simp only [List.length_append] at hle
    rw [Nat.add_sub_cancel_left, loadRange, if_pos (by omega), (holds_append.mp hbehind).1.take_drop]
  have hafter := (holds_append.mp hbehind).2
  have hrestnul : 0 ∉ afterFirst w.rest := fun h0 => hnul ((afterFirst_sublist _).subset h0)
  rw [component, hload, ok_bind, if_neg ha, hscan₁, ok_bind, hscan₂, ok_bind, hpart, ok_bind]
  obtain ⟨entries, hdir⟩ : ∃ entries, root.locate w.place = some (.directory entries) := by
    obtain ⟨n, hn, ⟨entries, rfl⟩ | ⟨-, hnil⟩⟩ := h.reached
    · exact ⟨entries, hn⟩
    · exact absurd hnil hrest
  by_cases hnil : firstName w.rest = []
  · rw [if_pos hnil, hfinish, Walk.step]
    rw [if_pos hnil]
    exact returns_ok ⟨_, rfl, buf, rfl, hbuf⟩
  by_cases hdot : firstName w.rest = [46]
  · rw [if_neg hnil, if_pos hdot, Walk.step]
    rw [if_neg hnil, if_pos hdot]
    exact returns_ok ⟨_, rfl, h.front, h.room, h.size, h.caller, h.extra, hafter, h.links, hrestnul,
      h.proper, _, hdir, .inl ⟨entries, rfl⟩⟩
  by_cases hdots : firstName w.rest = [46, 46]
  · obtain ⟨f, hf, hdest, hholds⟩ := h.front
    obtain ⟨f', hf', hback, hholds', hle⟩ := backUp_eq h.proper hf hholds
    rw [if_neg hnil, if_neg hdot, if_pos hdots, hdest, hback, ok_bind, Walk.step]
    rw [if_neg hnil, if_neg hdot, if_pos hdots]
    have hroom := h.room
    obtain ⟨entries', hdir'⟩ := Node.locate_dropLast hdir
    exact returns_ok ⟨_, rfl, ⟨f', hf', rfl, hholds'⟩, by dsimp only; omega, h.size, h.caller, h.extra,
      hafter, h.links, hrestnul, fun c hc => h.proper c (List.dropLast_subset _ hc), _, hdir',
      .inl ⟨entries', rfl⟩⟩
  · rw [if_neg hnil, if_neg hdot, if_neg hdots]
    exact h.enter hserves hfree hroot ⟨hnil, hdot, hdots, slash_notMem_firstName _,
      fun h0 => hnul ((firstName_sublist _).subset h0)⟩ hbehind

end

end Eglibc.Realpath
