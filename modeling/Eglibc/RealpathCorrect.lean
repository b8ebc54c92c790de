import Eglibc.RealpathRun

/-!
# Results of `__realpath`

A name is resolved correctly exactly if it has the same result when the targets of links
are cut to the `PATH_MAX - 1` bytes that `readlink` stores.
-/
namespace Eglibc.Realpath
open Checked Segments FileWords

section

variable (sys : System) (lim : Limits) (junk : ℕ → UInt8) (resolved : Bool) (name : List UInt8)

/-- The function returns, and with the canonical path that the name is resolved to, or with
an error if it cannot be resolved. -/
def Correct : Prop :=
  ∃ r o, sys.run lim junk resolved name = .ok r ∧ sys.Resolution lim resolved id name o ∧
    match o with
    | .ok p => (∃ buf, r = .ok buf ∧ Holds buf 0 (render p ++ [0])) ∧ Canonical sys.root p
    | .error _ => ∃ e, r = .error e

def CutSame : Prop :=
  ∀ o o', sys.Resolution lim resolved id name o →
    sys.Resolution lim resolved (List.take (lim.pathMax - 1)) name o' → o.toOption = o'.toOption

def ShortTargets : Prop := ∀ p t, sys.root.locate p = some (.link t) → t.length < lim.pathMax

end

section

variable {sys : System} {lim : Limits} {junk : ℕ → UInt8} {resolved : Bool} {name : List UInt8}
  {readable : List UInt8 → List UInt8} {o o' : Outcome (List (List UInt8))}

lemma System.exists_resolution (sys : System) (lim : Limits) (resolved : Bool)
    (readable : List UInt8 → List UInt8) (name : List UInt8) :
    ∃ o, sys.Resolution lim resolved readable name o := by
  unfold System.Resolution Realpath.Resolution
  split_ifs
  · exact exists_resolves _ _ _ _ _
  · exact ⟨_, rfl⟩
  · exact exists_resolves _ _ _ _ _

lemma System.resolution_unique (h : sys.Resolution lim resolved readable name o)
    (h' : sys.Resolution lim resolved readable name o') : o = o' := by
  unfold System.Resolution Realpath.Resolution at h h'
  split_ifs at h h'
  · exact h.unique h'
  · exact h.trans h'.symm
  · exact h.unique h'

lemma System.resolution_canonical (hnul : 0 ∉ name) (hread : ∀ t, 0 ∉ t → 0 ∉ readable t)
    (h : sys.Resolution lim resolved readable name (.ok p)) : Canonical sys.root p := by
  obtain ⟨hroot, hcwd⟩ := sys.onTheWay hnul
  unfold System.Resolution Realpath.Resolution at h
  split_ifs at h
  · exact h.canonical sys.rootDirectory sys.nulFree hread hroot rfl
  · exact h.canonical sys.rootDirectory sys.nulFree hread hcwd rfl

lemma System.resolution_congr
    (hsame : ∀ p t, sys.root.locate p = some (.link t) → readable t = readable' t)
    (h : sys.Resolution lim resolved readable name o) :
    sys.Resolution lim resolved readable' name o := by
  unfold System.Resolution Realpath.Resolution at h ⊢
  split_ifs at h ⊢
  · exact h.congr hsame
  · exact h
  · exact h.congr hsame

lemma path_unique (hp : ∀ c ∈ p, Proper c)
    (hq : ∀ c ∈ q, Proper c) (h : Holds buf 0 (render p ++ [0])) (h' : Holds buf 0 (render q ++ [0])) :
    p = q := by
  have hp' := text_eq h (render_noNul hp)
  have hq' := text_eq h' (render_noNul hq)
  rw [hp'] at hq'
  rw [← pathNames_render hp, ← pathNames_render hq, Except.ok.inj hq']

lemma shortTargets_cutSame (h : ShortTargets sys lim) : CutSame sys lim resolved name := by
  intro o o' ho ho'
  have hcut : sys.Resolution lim resolved (List.take (lim.pathMax - 1)) name o := by
    refine System.resolution_congr (fun p t ht => ?_) ho
    have hlt := h p t ht
    exact (List.take_of_length_le (show t.length ≤ lim.pathMax - 1 by omega)).symm
  rw [System.resolution_unique hcut ho']

lemma correct_iff (sys : System) (lim : Limits) (junk : ℕ → UInt8) (resolved : Bool)
    (hne : name ≠ []) (hnul : 0 ∉ name) :
    Correct sys lim junk resolved name ↔ CutSame sys lim resolved name := by
  obtain ⟨r, o', hr, ho', hm⟩ := sys.run_resolves lim junk resolved hne hnul
  obtain ⟨o, ho⟩ := sys.exists_resolution lim resolved id name
  have htake : ∀ t : List UInt8, 0 ∉ t → 0 ∉ t.take (lim.pathMax - 1) :=
    fun t ht h0 => ht (List.mem_of_mem_take h0)
  constructor
  · rintro ⟨r1, o1, hr1, ho1, hmatch⟩ x x' hx hx'
    rw [hr] at hr1
    cases hr1
    rw [System.resolution_unique hx ho1, System.resolution_unique hx' ho']
    cases o1 with
    | error e =>
      obtain ⟨e', rfl⟩ := hmatch
      cases o' with
      | error _ => rfl
      | ok p =>
        obtain ⟨buf, hbuf, -⟩ := hm
        cases hbuf
    | ok p =>
      obtain ⟨⟨buf, rfl, hbuf⟩, hcan⟩ := hmatch
      cases o' with
      | error e => cases hm
      | ok q =>
        obtain ⟨buf', hbuf', hq⟩ := hm
        cases hbuf'
        have hqcan := System.resolution_canonical hnul htake ho'
        rw [path_unique hcan.proper hqcan.proper hbuf hq]
  · intro hsame
    have heq := hsame o o' ho ho'
    refine ⟨r, o, hr, ho, ?_⟩
    cases o with
    | error e =>
      cases o' with
      | error e' => exact ⟨e', hm⟩
      | ok q => cases heq
    | ok p =>
      cases o' with
      | error e' => cases heq
      | ok q =>
        have hpq : p = q := Option.some.inj heq
        subst hpq
        exact ⟨hm, System.resolution_canonical hnul (fun _ h => h) ho⟩

end

/-- `__realpath` stays in its buffers and returns. A name has one resolution, and the
function returns it exactly if cutting the targets of links does not change it, in
particular if all targets are shorter than `PATH_MAX`. -/
theorem realpath_resolves (sys : System) (lim : Limits) (junk : ℕ → UInt8) (resolved : Bool)
    (name : List UInt8) (hne : name ≠ []) (hnul : 0 ∉ name) :
    (∃ r, sys.run lim junk resolved name = .ok r) ∧
      (∃! o, sys.Resolution lim resolved id name o) ∧
      (Correct sys lim junk resolved name ↔ CutSame sys lim resolved name) ∧
      (ShortTargets sys lim → Correct sys lim junk resolved name) := by
  have hiff := correct_iff sys lim junk resolved hne hnul
  obtain ⟨r, o', hr, -, -⟩ := sys.run_resolves lim junk resolved hne hnul
  obtain ⟨o, ho⟩ := sys.exists_resolution lim resolved id name
  exact ⟨⟨r, hr⟩, ⟨o, ho, fun x hx => System.resolution_unique hx ho⟩, hiff,
    fun hshort => hiff.mpr (shortTargets_cutSame hshort)⟩

/-! ## A kernel for every tree -/

/-- System calls that look the names of a path up in the tree. -/
def lookups (root : Node) (cwd : List (List UInt8)) : Kernel where
  getcwd := render cwd
  lstat := fun path => match root.locate (pathNames path) with
    | none => .error .ENOENT
    | some n => .ok n.type
  readlink := fun path => match root.locate (pathNames path) with
    | some (.link t) => .ok t
    | _ => .error .ENOENT

lemma lookups_serves (root : Node) (cwd : List (List UInt8)) : Serves root cwd (lookups root cwd) where
  getcwd := rfl
  lstat := by
    intro p c entries hproper _
    dsimp only [lookups]
    cases hn : root.locate (p ++ [c]) with
    | none | some n => rw [pathNames_render hproper, hn]
  readlink := by
    intro p t hproper ht
    dsimp only [lookups]
    rw [pathNames_render hproper, ht]

def linkTo (target : List UInt8) : Node :=
  .directory [([100], .directory []), ([108], .link target)]

lemma linkTo_target (h : (linkTo target).locate p = some (.link t)) : t = target := by
  cases p with
  | nil => cases h
  | cons c p =>
    rw [Node.locate, linkTo, Node.child] at h
    by_cases hd : [100] = c
    · subst hd
      cases p with
      | nil | cons _ _ => cases h
    by_cases hl : [108] = c
    · subst hl
      cases p with
      | nil =>
        cases h
        rfl
      | cons _ _ => cases h
    · simp [hd, hl] at h

def linkSystem (target : List UInt8) (ht : 0 ∉ target) : System where
  root := linkTo target
  cwd := []
  kernel := lookups (linkTo target) []
  nulFree := fun _ _ hp => linkTo_target hp ▸ ht
  cwdProper := nofun
  cwdDirectory := ⟨_, rfl⟩
  serves := lookups_serves _ _

def linux : Limits := ⟨4096, 40, by decide⟩

theorem link_to_d_resolved :
    Correct (linkSystem [100] (by decide)) linux (fun _ => 0) true [47, 108] := by
  refine (realpath_resolves _ linux (fun _ => 0) true [47, 108] (by decide) (by decide)).2.2.2 ?_
  intro p t ht
  rw [linkTo_target ht]
  decide

/-- `d`, `n` separators and `x` -/
def longTarget (n : ℕ) : List UInt8 := 100 :: (List.replicate n 47 ++ [120])

lemma longTarget_noNul (n : ℕ) : 0 ∉ longTarget n := by
  simp [longTarget, List.mem_replicate]

section

variable {n : ℕ} {lim : Limits} (hmax : lim.pathMax = n + 2) (hloops : 0 < lim.eloopThreshold)
  (resolved : Bool)

include hmax hloops

lemma longTarget_cut (hn : 0 < n) :
    Resolves lim (linkTo (longTarget n)) resolved (List.take (lim.pathMax - 1)) ⟨[], 0, [47, 108]⟩
      (.ok [[100]]) := by
  have htake : (longTarget n).take (lim.pathMax - 1) = 100 :: List.replicate n 47 := by
    rw [hmax, longTarget]
    simp
  have hshort : ∀ c : UInt8, ¬ (resolved = true ∧ lim.pathMax ≤ (render ([] ++ [[c]])).length) := by
    rintro c ⟨-, h⟩
    have hlen : (render ([] ++ [[c]])).length = 2 := rfl
    omega
  have hfirst : firstName (100 :: List.replicate n 47) = [100] := by simp [firstName]
  have hafter : afterFirst (100 :: List.replicate n 47) = List.replicate n 47 := by
    simp [afterFirst]
  have hend : firstName (List.replicate n 47) = [] := by simp [firstName]
  have hlink : Walk.step lim (linkTo (longTarget n)) resolved (List.take (lim.pathMax - 1))
      ⟨[], 0, [47, 108]⟩ = .inl ⟨[], 1, 100 :: List.replicate n 47⟩ := by
    have hname : firstName [47, 108] = [108] := rfl
    have hrest : afterFirst [47, 108] = [] := rfl
    have hlocate : (linkTo (longTarget n)).locate ([] ++ [[108]]) = some (.link (longTarget n)) := rfl
    rw [Walk.step]
    rw [hname, if_neg (by decide), if_neg (by decide), if_neg (by decide), if_neg (hshort 108), hlocate]
    dsimp only [Walk.follow]
    rw [hrest, htake, if_neg (by omega), if_neg (by simp; omega)]
    simp
  have hdirectory : Walk.step lim (linkTo (longTarget n)) resolved (List.take (lim.pathMax - 1))
      ⟨[], 1, 100 :: List.replicate n 47⟩ = .inl ⟨[[100]], 1, List.replicate n 47⟩ := by
    have hlocate : (linkTo (longTarget n)).locate ([] ++ [[100]]) = some (.directory []) := rfl
    rw [Walk.step]
    rw [hfirst, hafter, if_neg (by decide), if_neg (by decide), if_neg (by decide),
      if_neg (hshort 100), hlocate]
    rfl
  refine .go hlink (.go hdirectory (.halt ?_))
  rw [Walk.step]
  rw [hend, if_pos rfl]

lemma longTarget_fails :
    Resolves lim (linkTo (longTarget n)) resolved id ⟨[], 0, [47, 108]⟩ (.error .ENAMETOOLONG) := by
  have hname : firstName [47, 108] = [108] := rfl
  have hlocate : (linkTo (longTarget n)).locate ([] ++ [[108]]) = some (.link (longTarget n)) := rfl
  have hlen : (longTarget n).length = n + 2 := by simp [longTarget]
  refine .halt ?_
  rw [Walk.step]
  rw [hname, if_neg (by decide), if_neg (by decide), if_neg (by decide)]
  by_cases hlong : resolved = true ∧ lim.pathMax ≤ (render ([] ++ [[108]])).length
  · rw [if_pos hlong]
  · rw [if_neg hlong, hlocate]
    dsimp only [Walk.follow]
    rw [if_neg (by omega), if_pos (by rw [id, hlen]; omega)]

end

/-- A link whose target has `PATH_MAX` bytes is taken for one to the directory `d`. -/
theorem longTarget_misresolved :
    (∃ buf, (linkSystem (longTarget 4094) (longTarget_noNul _)).run linux (fun _ => 0) false [47, 108]
        = .ok (.ok buf) ∧ Holds buf 0 [47, 100, 0]) ∧
      ¬ Correct (linkSystem (longTarget 4094) (longTarget_noNul _)) linux (fun _ => 0) false
        [47, 108] := by
  have hcut : (linkSystem (longTarget 4094) (longTarget_noNul _)).Resolution linux false
      (List.take (linux.pathMax - 1)) [47, 108] (.ok [[100]]) :=
    longTarget_cut rfl (by decide) false (by decide)
  have hfail : (linkSystem (longTarget 4094) (longTarget_noNul _)).Resolution linux false id
      [47, 108] (.error .ENAMETOOLONG) := longTarget_fails rfl (by decide) false
  constructor
  · obtain ⟨r, o, hr, ho, hm⟩ := (linkSystem (longTarget 4094) (longTarget_noNul _)).run_resolves linux
      (fun _ => 0) false (show ([47, 108] : List UInt8) ≠ [] by decide) (by decide)
    rw [System.resolution_unique ho hcut] at hm
    obtain ⟨buf, rfl, hbuf⟩ := hm
    exact ⟨buf, hr, hbuf⟩
  · rw [correct_iff _ _ _ _ (by decide) (by decide)]
    intro hsame
    cases hsame _ _ hfail hcut

end Eglibc.Realpath
