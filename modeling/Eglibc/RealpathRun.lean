import Eglibc.RealpathWalk

/-!
# Resolution by `__realpath`

Counting the links bounds the walk. The result of `__realpath` is that of the resolution
with cut targets.
-/
namespace Eglibc.Realpath
open Checked Segments FileWords

/-! ## Walks end -/

section

variable {lim : Limits} {root : Node} {resolved : Bool} {readable : List UInt8 → List UInt8}
  {w w' : Walk} {o o' : Outcome (List (List UInt8))}

inductive Stepped (lim : Limits) (root : Node) (readable : List UInt8 → List UInt8) (w : Walk) :
    Walk ⊕ Outcome (List (List UInt8)) → Prop
  | done : Stepped lim root readable w (.inr (.ok w.place))
  | failed (e : Errno) : Stepped lim root readable w (.inr (.error e))
  | stay : firstName w.rest ≠ [] →
    Stepped lim root readable w (.inl ⟨w.place, w.links, afterFirst w.rest⟩)
  | parent : firstName w.rest ≠ [] →
    Stepped lim root readable w (.inl ⟨w.place.dropLast, w.links, afterFirst w.rest⟩)
  | child (n : Node) : firstName w.rest ≠ [] → firstName w.rest ≠ [46] → firstName w.rest ≠ [46, 46] →
    root.locate (w.place ++ [firstName w.rest]) = some n →
    ((∃ entries, n = .directory entries) ∨ n = .file ∧ afterFirst w.rest = []) →
    Stepped lim root readable w (.inl ⟨w.place ++ [firstName w.rest], w.links, afterFirst w.rest⟩)
  | link (target : List UInt8) (place : List (List UInt8)) : firstName w.rest ≠ [] →
    root.locate (w.place ++ [firstName w.rest]) = some (.link target) →
    place = [] ∨ place = w.place → w.links + 1 ≤ lim.eloopThreshold →
    (readable target ++ afterFirst w.rest).length < lim.pathMax →
    Stepped lim root readable w (.inl ⟨place, w.links + 1, readable target ++ afterFirst w.rest⟩)

lemma Walk.stepped (lim : Limits) (root : Node) (resolved : Bool)
    (readable : List UInt8 → List UInt8) (w : Walk) :
    Stepped lim root readable w (w.step lim root resolved readable) := by
  unfold Walk.step
  by_cases hnil : firstName w.rest = []
  · rw [if_pos hnil]
    exact .done
  by_cases hdot : firstName w.rest = [46]
  · simpa [hnil, hdot] using .stay hnil
  by_cases hdots : firstName w.rest = [46, 46]
  · rw [if_neg hnil, if_neg hdot, if_pos hdots]
    exact .parent hnil
  by_cases hlong : resolved = true ∧ lim.pathMax ≤ (render (w.place ++ [firstName w.rest])).length
  · rw [if_neg hnil, if_neg hdot, if_neg hdots, if_pos hlong]
    exact .failed _
  rw [if_neg hnil, if_neg hdot, if_neg hdots, if_neg hlong]
  cases hn : root.locate (w.place ++ [firstName w.rest]) with
  | none => exact .failed _
  | some n =>
    cases n with
    | directory entries => exact .child _ hnil hdot hdots hn (.inl ⟨entries, rfl⟩)
    | file =>
      split_ifs with hend
      · exact .child _ hnil hdot hdots hn (.inr ⟨rfl, hend⟩)
      · exact .failed _
    | link target =>
      dsimp only [Walk.follow]
      split_ifs with hloop hsize habs
      · exact .failed _
      · exact .failed _
      · exact .link target _ hnil hn (.inl rfl) (by omega) (by simp; omega)
      · exact .link target _ hnil hn (.inr rfl) (by omega) (by simp; omega)

def Walk.measure (lim : Limits) (w : Walk) : ℕ :=
  (lim.eloopThreshold - w.links) * lim.pathMax + w.rest.length

lemma Walk.measure_lt (h : w.step lim root resolved readable = .inl w') :
    w'.measure lim < w.measure lim := by
  have hs := w.stepped lim root resolved readable
  rw [h] at hs
  unfold Walk.measure
  cases hs with
  | stay hne | parent hne | child n hne =>
    have := length_afterFirst hne
    dsimp only
    omega
  | link target place hne hn hplace hle hlt =>
    have hsub : lim.eloopThreshold - w.links = lim.eloopThreshold - (w.links + 1) + 1 := by omega
    dsimp only
    rw [hsub, Nat.add_mul, Nat.one_mul]
    omega

lemma exists_resolves (lim : Limits) (root : Node) (resolved : Bool)
    (readable : List UInt8 → List UInt8) (w : Walk) : ∃ o, Resolves lim root resolved readable w o := by
  induction hm : w.measure lim using Nat.strong_induction_on generalizing w with
  | _ m ih =>
    cases hstep : w.step lim root resolved readable with
    | inr o => exact ⟨o, .halt hstep⟩
    | inl w' =>
      obtain ⟨o, ho⟩ := ih _ (hm ▸ Walk.measure_lt hstep) w' rfl
      exact ⟨o, .go hstep ho⟩

lemma Resolves.unique (h : Resolves lim root resolved readable w o)
    (h' : Resolves lim root resolved readable w o') : o = o' := by
  induction h with
  | halt hstep =>
    cases h' with
    | halt hstep' =>
      rw [hstep] at hstep'
      exact Sum.inr.inj hstep'
    | go hstep' _ =>
      rw [hstep] at hstep'
      cases hstep'
  | go hstep _ ih =>
    cases h' with
    | halt hstep' =>
      rw [hstep] at hstep'
      cases hstep'
    | go hstep' hrest =>
      rw [hstep] at hstep'
      cases hstep'
      exact ih hrest

lemma Resolves.congr {readable' : List UInt8 → List UInt8}
    (hsame : ∀ p t, root.locate p = some (.link t) → readable t = readable' t)
    (h : Resolves lim root resolved readable w o) : Resolves lim root resolved readable' w o := by
  have hstep : ∀ v : Walk, v.step lim root resolved readable = v.step lim root resolved readable' := by
    intro v
    unfold Walk.step
    dsimp only
    cases hn : root.locate (v.place ++ [firstName v.rest]) with
    | none => rfl
    | some n =>
      cases n with
      | directory entries | file => rfl
      | link t =>
        dsimp only [Walk.follow]
        rw [hsame _ _ hn]
  induction h with
  | halt h => exact .halt (hstep _ ▸ h)
  | go h _ ih => exact .go (hstep _ ▸ h) ih

end

/-! ## Canonical paths -/

section

variable {lim : Limits} {root : Node} {resolved : Bool} {readable : List UInt8 → List UInt8}
  {w : Walk} {o : Outcome (List (List UInt8))}

structure Canonical (root : Node) (p : List (List UInt8)) : Prop where
  proper : ∀ c ∈ p, Proper c
  located : ∃ n, root.locate p = some n ∧ n.type ≠ .link

structure OnTheWay (root : Node) (w : Walk) : Prop where
  noNul : 0 ∉ w.rest
  proper : ∀ c ∈ w.place, Proper c
  reached : ∃ n, root.locate w.place = some n ∧
    ((∃ entries, n = .directory entries) ∨ n = .file ∧ w.rest = [])

lemma OnTheWay.canonical (h : OnTheWay root w) : Canonical root w.place := by
  obtain ⟨n, hn, hkind⟩ := h.reached
  refine ⟨h.proper, n, hn, ?_⟩
  obtain ⟨entries, rfl⟩ | ⟨rfl, -⟩ := hkind
  · exact nofun
  · exact nofun

variable (hroot : ∃ entries, root = .directory entries) (hfree : NulFree root)
  (hread : ∀ t, 0 ∉ t → 0 ∉ readable t)

include hroot hfree hread

lemma OnTheWay.step {w' : Walk} (h : OnTheWay root w)
    (hstep : w.step lim root resolved readable = .inl w') : OnTheWay root w' := by
  have hs := w.stepped lim root resolved readable
  rw [hstep] at hs
  have hafter : 0 ∉ afterFirst w.rest := fun h0 => h.noNul ((afterFirst_sublist _).subset h0)
  have hdir : firstName w.rest ≠ [] → ∃ entries, root.locate w.place = some (.directory entries) := by
    intro hne
    obtain ⟨n, hn, ⟨entries, rfl⟩ | ⟨-, hnil⟩⟩ := h.reached
    · exact ⟨entries, hn⟩
    · rw [hnil] at hne
      exact absurd rfl hne
  cases hs with
  | stay hne =>
    obtain ⟨entries, hd⟩ := hdir hne
    exact ⟨hafter, h.proper, _, hd, .inl ⟨entries, rfl⟩⟩
  | parent hne =>
    obtain ⟨entries, hd⟩ := hdir hne
    obtain ⟨entries', hd'⟩ := Node.locate_dropLast hd
    exact ⟨hafter, fun c hc => h.proper c (List.dropLast_subset _ hc), _, hd', .inl ⟨entries', rfl⟩⟩
  | child n hne hdot hdots hn hkind =>
    refine ⟨hafter, ?_, n, hn, hkind⟩
    intro c hmem
    obtain hmem | hmem := List.mem_append.mp hmem
    · exact h.proper c hmem
    · rw [List.mem_singleton.mp hmem]
      exact ⟨hne, hdot, hdots, slash_notMem_firstName _,
        fun h0 => h.noNul ((firstName_sublist _).subset h0)⟩
  | link target place hne hn hplace =>
    obtain ⟨entries, hd⟩ := hdir hne
    have hnul : 0 ∉ readable target ++ afterFirst w.rest := by
      rw [List.mem_append]
      exact fun h0 => h0.elim (hread target (hfree _ _ hn)) hafter
    obtain rfl | rfl := hplace
    · obtain ⟨es, rfl⟩ := hroot
      exact ⟨hnul, nofun, _, rfl, .inl ⟨es, rfl⟩⟩
    · exact ⟨hnul, h.proper, _, hd, .inl ⟨entries, rfl⟩⟩

lemma Resolves.canonical (h : Resolves lim root resolved readable w o) (hw : OnTheWay root w)
    {p : List (List UInt8)} (hp : o = .ok p) : Canonical root p := by
  induction h with
  | @halt w o hstep =>
    have hs := w.stepped lim root resolved readable
    rw [hstep, hp] at hs
    cases hs
    exact hw.canonical
  | go hstep _ ih => exact ih (hw.step hroot hfree hread hstep) hp

end

def pathNames (path : List UInt8) : List (List UInt8) := (path.splitOn 47).filter (· ≠ [])

lemma pathNames_render {p : List (List UInt8)} (hp : ∀ c ∈ p, Proper c) : pathNames (render p) = p := by
  have htrail : ∀ q : List (List UInt8), q ≠ [] → trail q = [47].intercalate ([] :: q) := by
    intro q hq
    induction q with
    | nil => exact absurd rfl hq
    | cons c q ih =>
      cases q with
      | nil => simp [trail]
      | cons d q =>
        have hrest := ih (List.cons_ne_nil d q)
        simp only [trail, List.flatMap_cons, List.intercalate_cons_cons, List.nil_append] at hrest ⊢
        rw [hrest]
        simp
  unfold pathNames
  cases p with
  | nil => decide
  | cons c p =>
    rw [render_eq (List.cons_ne_nil c p), htrail _ (List.cons_ne_nil c p),
      List.splitOn_intercalate, List.filter_cons_of_neg (by simp), List.filter_eq_self.mpr]
    · intro d hd
      simpa using (hp d hd).ne_nil
    · intro d hd
      obtain rfl | hd := List.mem_cons.mp hd
      · exact List.not_mem_nil
      · exact (hp d hd).slash
    · exact List.cons_ne_nil _ _

structure System where
  root : Node
  cwd : List (List UInt8)
  kernel : Kernel
  nulFree : NulFree root
  cwdProper : ∀ c ∈ cwd, Proper c
  cwdDirectory : ∃ entries, root.locate cwd = some (.directory entries)
  serves : Serves root cwd kernel

namespace System

variable (sys : System) (lim : Limits) (junk : ℕ → UInt8) (resolved : Bool)

lemma rootDirectory : ∃ entries, sys.root = .directory entries := by
  obtain ⟨entries, hd⟩ := sys.cwdDirectory
  cases hcwd : sys.cwd with
  | nil =>
    rw [hcwd] at hd
    exact ⟨entries, Option.some.inj hd⟩
  | cons c p =>
    rw [hcwd, Node.locate] at hd
    obtain ⟨n, hn, -⟩ := Option.bind_eq_some_iff.mp hd
    cases hroot : sys.root with
    | directory es => exact ⟨es, rfl⟩
    | file | link t =>
      rw [hroot] at hn
      cases hn

def Resolution (readable : List UInt8 → List UInt8) (name : List UInt8) :
    Outcome (List (List UInt8)) → Prop :=
  Realpath.Resolution lim sys.root resolved readable sys.cwd name

def run (name : List UInt8) : Run (Outcome (List UInt8)) :=
  realpath lim sys.kernel junk resolved (name ++ [0])

variable {sys lim junk resolved}

variable {name : List UInt8}

lemma iterate_resolves {s : State} {w : Walk} {budget : ℕ}
    (h : Represents lim sys.root resolved name s w) (hb : w.measure lim < budget) :
    ∃ r o, iterate (component lim sys.kernel junk resolved name) budget s = .ok r ∧
      Resolves lim sys.root resolved (List.take (lim.pathMax - 1)) w o ∧ Matches r o := by
  induction budget generalizing s w with
  | zero => omega
  | succ budget ih =>
    obtain ⟨out, hout, hsim⟩ := component_simulates junk sys.serves sys.nulFree h
      sys.rootDirectory
    cases hstep : w.step lim sys.root resolved (List.take (lim.pathMax - 1)) with
    | inl w' =>
      rw [hstep] at hsim
      obtain ⟨s', rfl, hs'⟩ := hsim
      have hlt := Walk.measure_lt hstep
      obtain ⟨r, o, hr, ho, hm⟩ := ih hs' (by omega)
      exact ⟨r, o, by rw [iterate_next hout, hr], .go hstep ho, hm⟩
    | inr o =>
      rw [hstep] at hsim
      obtain ⟨r, rfl, hm⟩ := hsim
      exact ⟨r, o, iterate_exit hout, .halt hstep, hm⟩

variable (sys : System)

lemma onTheWay (hnul : 0 ∉ name) :
    OnTheWay sys.root ⟨[], 0, name⟩ ∧ OnTheWay sys.root ⟨sys.cwd, 0, name⟩ := by
  obtain ⟨es, hroot⟩ := sys.rootDirectory
  obtain ⟨entries, hd⟩ := sys.cwdDirectory
  exact ⟨⟨hnul, nofun, _, rfl, .inl ⟨es, hroot⟩⟩, ⟨hnul, sys.cwdProper, _, hd, .inl ⟨entries, rfl⟩⟩⟩

lemma run_resolves (lim : Limits) (junk : ℕ → UInt8) (resolved : Bool)
    (hne : name ≠ []) (hnul : 0 ∉ name) : ∃ r o, sys.run lim junk resolved name = .ok r ∧
      sys.Resolution lim resolved (List.take (lim.pathMax - 1)) name o ∧ Matches r o := by
  have h2 := lim.two_le
  obtain ⟨a, tl, rfl⟩ := List.exists_cons_of_ne_nil hne
  have ha : a ≠ 0 := by
    rintro rfl
    exact hnul List.mem_cons_self
  have hload : load (a :: tl ++ [0]) 0 = .ok a := rfl
  obtain ⟨hroot, hcwd⟩ := sys.onTheWay hnul
  -- the loop, from a start in which the path of the place has been stored
  have hloop : ∀ place rpath f, OnTheWay sys.root ⟨place, 0, a :: tl⟩ → Front place f →
      Holds rpath 0 f → f.length < rpath.length → rpath.length = lim.pathMax →
      ∃ r o, iterate (component lim sys.kernel junk resolved (a :: tl ++ [0]))
          (lim.eloopThreshold * lim.pathMax + (a :: tl ++ [0]).length + 1)
          ⟨rpath, f.length, fresh junk lim.pathMax, false, 0, 0⟩ = .ok r ∧
        Resolves lim sys.root resolved (List.take (lim.pathMax - 1)) ⟨place, 0, a :: tl⟩ o ∧
        Matches r o := by
    intro place rpath f hw hf hholds hroom hlen
    refine iterate_resolves ⟨⟨f, hf, rfl, hholds⟩, hroom, hlen.ge, fun _ => hlen, length_fresh _ _,
      holds_self _, rfl, hw.noNul, hw.proper, hw.reached⟩ ?_
    rw [Walk.measure, List.length_append]
    dsimp only
    rw [Nat.sub_zero]
    omega
  rw [run, realpath, hload, ok_bind, if_neg ha, initial, hload, ok_bind]
  by_cases habs : a = 47
  · obtain ⟨rpath, hr, hw⟩ := store_returns (a := 47)
      (show 0 < (fresh junk lim.pathMax).length by rw [length_fresh]; omega)
    have hlen : rpath.length = lim.pathMax := by rw [hw.length_eq, length_fresh]
    obtain ⟨r, o, hrun, ho, hm⟩ := hloop [] rpath [47] hroot (.inl rfl) hw.holds
      (by rw [hlen]; exact h2) hlen
    refine ⟨r, o, ?_, ?_, hm⟩
    · rwa [if_neg (not_not.mpr habs), hr, ok_bind, ok_bind]
    · rwa [System.Resolution, Realpath.Resolution, List.head?_cons, if_pos (congrArg some habs)]
  have hrel : ¬ (a :: tl).head? = some 47 := fun h => habs (Option.some.inj h)
  rw [if_pos habs, sys.serves.getcwd]
  by_cases hfit : lim.pathMax ≤ (render sys.cwd).length
  · refine ⟨.error .ERANGE, .error .ERANGE, ?_, ?_, rfl⟩
    · rw [if_neg (by omega),
        store_eq (show 0 < (fresh junk lim.pathMax).length by rw [length_fresh]; omega)]
      rfl
    · rw [System.Resolution, Realpath.Resolution, if_neg hrel, if_pos hfit]
  obtain ⟨rpath, hr, hw⟩ := storeRange_returns
    (show 0 + (render sys.cwd ++ [0]).length ≤ (fresh junk lim.pathMax).length by
      rw [length_fresh, List.length_append, List.length_singleton]; omega)
  have hlen : rpath.length = lim.pathMax := by rw [hw.length_eq, length_fresh]
  have hscan : scan (· = 0) rpath 0 = .ok (0 + (render sys.cwd).length) := by
    refine scan_eq hw.holds (fun y hy => ?_) (by decide)
    have h0 : y ≠ 0 := fun h0 => render_noNul sys.cwdProper (h0 ▸ hy)
    simpa using h0
  obtain ⟨r, o, hrun, ho, hm⟩ := hloop sys.cwd rpath _ hcwd (.inl rfl)
    (holds_append.mp hw.holds).1 (by omega) hlen
  refine ⟨r, o, ?_, ?_, hm⟩
  · rwa [if_pos (by omega), hr, ok_bind, hscan, ok_bind, ok_bind, Nat.zero_add]
  · rwa [System.Resolution, Realpath.Resolution, if_neg hrel, if_neg hfit]

end System

end Eglibc.Realpath
