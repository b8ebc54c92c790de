import Mathlib

/-!
# Checked runs

C code is embedded as functions into `Run`. A run returns a value or stops at a fault:
an access outside an object, an unsigned computation that wraps where the code relies on
it not wrapping, a failed assertion, or a loop that has used up its step budget.
`Returns` is the total-correctness triple; `iterate` is the one loop construct.
-/
namespace Eglibc.Checked

inductive Fault
  | read (index : ℕ)
  | write (index : ℕ)
  | wrap
  | assertion
  | budget
  deriving DecidableEq, Repr

abbrev Run (α : Type) := Except Fault α

/-- The run ends without a fault in a value that satisfies `Q`. -/
def Returns {α : Type} (x : Run α) (Q : α → Prop) : Prop := ∃ a, x = .ok a ∧ Q a

section
variable {α β : Type} {P Q : α → Prop}

lemma returns_ok (h : Q a) : Returns (.ok a) Q := ⟨a, rfl, h⟩

lemma returns_pure (h : Q a) : Returns (pure a) Q := ⟨a, rfl, h⟩

lemma Returns.mono (hx : Returns x P) (h : ∀ a, P a → Q a) : Returns x Q := by
  obtain ⟨a, rfl, ha⟩ := hx
  exact ⟨a, rfl, h a ha⟩

lemma Returns.bind (hx : Returns x P) (hf : ∀ a, P a → Returns (f a) R) : Returns (x >>= f) R := by
  obtain ⟨a, rfl, ha⟩ := hx
  exact hf a ha

theorem returns_of_map (h : x.map f = .ok b) : Returns x fun a => f a = b := by
  cases x with
  | error e => contradiction
  | ok a => exact ⟨a, rfl, Except.ok.inj h⟩

@[simp] lemma ok_bind (a : α) (f : α → Run β) : ((.ok a : Run α) >>= f) = f a := rfl

@[simp] lemma error_bind (e : Fault) (f : α → Run β) : ((.error e : Run α) >>= f) = .error e := rfl

lemma ok_of_bind {x : Run α} {f : α → Run β} {b : β} (h : (x >>= f) = .ok b) :
    ∃ a, x = .ok a ∧ f a = .ok b := by
  cases x with
  | error e => cases h
  | ok a => exact ⟨a, rfl, h⟩

@[simp] lemma pure_eq_ok (a : α) : (pure a : Run α) = .ok a := rfl

end

def load {α : Type} (xs : List α) (i : ℕ) : Run α :=
  match xs[i]? with
  | some a => .ok a
  | none => .error (.read i)

lemma load_eq {α : Type} {xs : List α} {i : ℕ} (d : α) (h : i < xs.length) :
    load xs i = .ok (xs.getD i d) := by
  simp [load, List.getElem?_eq_getElem h]

def store {α : Type} (xs : List α) (i : ℕ) (a : α) : Run (List α) :=
  if i < xs.length then .ok (xs.set i a) else .error (.write i)

lemma store_eq (h : i < xs.length) : store xs i a = .ok (xs.set i a) := by
  simp [store, h]

def ensure (condition : Prop) [Decidable condition] : Run Unit :=
  if condition then .ok () else .error .assertion

lemma getD_set {α : Type} {xs : List α} {i : ℕ} (a d : α) (j : ℕ) (h : i < xs.length) :
    (xs.set i a).getD j d = if i = j then a else xs.getD j d := by
  by_cases hij : i = j
  · subst hij
    simp [List.getElem?_set_self h]
  · simp [List.getElem?_set_ne hij, hij]

def loadRange {α : Type} (xs : List α) (i n : ℕ) : Run (List α) :=
  if i + n ≤ xs.length then .ok ((xs.drop i).take n) else .error (.read (i + n))

def storeRange {α : Type} (xs : List α) (i : ℕ) (ys : List α) : Run (List α) :=
  if i + ys.length ≤ xs.length then .ok (xs.take i ++ ys ++ xs.drop (i + ys.length))
  else .error (.write (i + ys.length))

section
variable {α : Type} {u x y v : List α} {i n : ℕ}

lemma exists_split (h : n ≤ u.length) : ∃ x y, u = x ++ y ∧ x.length = n :=
  ⟨u.take n, u.drop n, (List.take_append_drop n u).symm, List.length_take_of_le h⟩

lemma loadRange_eq (hi : u.length = i) (hn : x.length = n) :
    loadRange (u ++ x ++ v) i n = .ok x := by
  subst hi hn
  simp [loadRange]

lemma storeRange_eq (hi : u.length = i) (hx : y.length = x.length) :
    storeRange (u ++ y ++ v) i x = .ok (u ++ x ++ v) := by
  subst hi
  have hdrop : (u ++ y ++ v).drop (u.length + x.length) = v := by
    simp [← hx]
  rw [storeRange, if_pos (by simp [hx]), hdrop, List.append_assoc u y v, List.take_left]

end

/-- The largest `size_t`. -/
def sizeMax : ℕ := 2 ^ 64 - 1

/-- `size_t` addition, which wraps. -/
@[irreducible] def sizeAdd (a b : ℕ) : ℕ := (a + b) % 2 ^ 64

/-- `size_t` subtraction, which wraps. -/
@[irreducible] def sizeSub (a b : ℕ) : ℕ := (a + (2 ^ 64 - b)) % 2 ^ 64

lemma sizeAdd_eq (h : a + b < 2 ^ 64) : sizeAdd a b = a + b := by
  unfold sizeAdd
  exact Nat.mod_eq_of_lt h

lemma sizeSub_eq (hab : b ≤ a) (ha : a < 2 ^ 64) : sizeSub a b = a - b := by
  unfold sizeSub
  omega

lemma sizeAdd_pred (hb : 0 < b) (h : a + b ≤ 2 ^ 64) : sizeAdd (sizeSub a 1) b = a + b - 1 := by
  unfold sizeAdd sizeSub
  omega

lemma sizeSub_pred (hab : b ≤ a + 1) (h : a + 1 - b < 2 ^ 64) :
    sizeSub a (sizeSub b 1) = a + 1 - b := by
  unfold sizeSub
  omega

lemma sizeSub_one_eq_max (h : a < 2 ^ 64) : sizeSub a 1 = sizeMax ↔ a = 0 := by
  unfold sizeSub sizeMax
  omega

/-- Run a loop body, for at most `budget` passes. It answers with the state of the next
pass or with the value the loop exits with. -/
def iterate {σ ρ : Type} (body : σ → Run (σ ⊕ ρ)) : ℕ → σ → Run ρ
  | 0, _ => .error .budget
  | budget + 1, s => do
      match ← body s with
      | .inl s' => iterate body budget s'
      | .inr r => .ok r

section
variable {σ ρ : Type} {body : σ → Run (σ ⊕ ρ)}

lemma iterate_next (h : body s = .ok (.inl s')) :
    iterate body (budget + 1) s = iterate body budget s' := by
  simp [iterate, h]

lemma iterate_exit (h : body s = .ok (.inr r)) : iterate body (budget + 1) s = .ok r := by
  simp [iterate, h]

/-- What one pass does when the invariant `I` holds with a bound `m` on the passes left. -/
def Closer (I : ℕ → σ → Prop) (Post : ρ → Prop) (m : ℕ) : σ ⊕ ρ → Prop
  | .inl s' => ∃ m' < m, I m' s'
  | .inr r => Post r

/-- The loop rule for a variant that is not read off the state. -/
theorem iterate_closer (step : ∀ m s, I m s → Returns (body s) (Closer I Post m)) :
    ∀ {budget m : ℕ} {s : σ}, I m s → m < budget → Returns (iterate body budget s) Post := by
  intro budget
  induction budget with
  | zero => intro m s _ hb; exact absurd hb (Nat.not_lt_zero _)
  | succ budget ih =>
    intro m s hs hb
    obtain ⟨next, he, hn⟩ := step m s hs
    cases next with
    | inl s' =>
      obtain ⟨m', hm, hs'⟩ := hn
      rw [iterate_next he]
      exact ih hs' (by omega)
    | inr r =>
      rw [iterate_exit he]
      exact ⟨r, rfl, hn⟩

/-- What one pass of a loop with invariant `I`, variant `μ` and exit condition `Post` does. -/
def Pass (I : σ → Prop) (μ : σ → ℕ) (Post : ρ → Prop) (s : σ) : σ ⊕ ρ → Prop
  | .inl s' => I s' ∧ μ s' < μ s
  | .inr r => Post r

/-- The loop rule: an invariant, and a variant that every further pass lowers. -/
theorem iterate_returns (μ : σ → ℕ)
    (step : ∀ s, I s → Returns (body s) (Pass I μ Post s)) (hs : I s)
    (hb : μ s < budget) : Returns (iterate body budget s) Post := by
  refine iterate_closer (I := fun m s => I s ∧ μ s = m) ?_ ⟨hs, rfl⟩ hb
  rintro m s ⟨hs, rfl⟩
  refine (step s hs).mono ?_
  rintro (s' | r) h
  · exact ⟨μ s', h.2, h.1, rfl⟩
  · exact h

/-- Partial correctness: what holds of the result of a loop that ends. -/
theorem iterate_ok {I : σ → Prop} {Q : ρ → Prop}
    (next : ∀ s s', I s → body s = .ok (.inl s') → I s')
    (exit : ∀ s r, I s → body s = .ok (.inr r) → Q r) {budget : ℕ} {s : σ} {r : ρ} (hs : I s)
    (h : iterate body budget s = .ok r) : Q r := by
  induction budget generalizing s with
  | zero => cases h
  | succ budget ih =>
    rw [iterate] at h
    cases hb : body s with
    | error e =>
      rw [hb] at h
      cases h
    | ok out =>
      rw [hb, ok_bind] at h
      cases out with
      | inl s' => exact ih (next s s' hs hb) h
      | inr r' =>
        cases h
        exact exit s r hs hb

/-- A loop whose variant falls with every pass does not depend on its budget. -/
theorem iterate_stable (μ : σ → ℕ) (hμ : ∀ s s', body s = .ok (.inl s') → μ s' < μ s)
    (hb : μ s < budget) : iterate body budget s = iterate body (μ s + 1) s := by
  induction budget using Nat.strong_induction_on generalizing s with
  | _ budget ih =>
    obtain _ | budget := budget
    · omega
    cases hbody : body s with
    | error e => simp [iterate, hbody]
    | ok out =>
      cases out with
      | inr r => rw [iterate_exit hbody, iterate_exit hbody]
      | inl s' =>
        have hlt := hμ s s' hbody
        rw [iterate_next hbody, iterate_next hbody, ih budget (by omega) (by omega),
          ← ih (μ s) (by omega) hlt]

theorem iterate_maps {τ π : Type} {body' : τ → Run (τ ⊕ π)} {f : σ → τ} {g : ρ → π}
    (h : ∀ s out, body s = .ok out → body' (f s) = .ok (out.map f g)) {budget : ℕ} {s : σ} {r : ρ}
    (hr : iterate body budget s = .ok r) : iterate body' budget (f s) = .ok (g r) := by
  induction budget generalizing s with
  | zero => cases hr
  | succ budget ih =>
    rw [iterate] at hr ⊢
    cases hb : body s with
    | error e =>
      rw [hb] at hr
      cases hr
    | ok out =>
      rw [hb, ok_bind] at hr
      rw [h s out hb, ok_bind]
      cases out with
      | inl s' => exact ih hr
      | inr r' =>
        cases hr
        rfl

lemma iterate_refines {body' : σ → Run (σ ⊕ ρ)}
    (h : ∀ s out, body s = .ok out → body' s = .ok out) {budget : ℕ} {s : σ} {r : ρ}
    (hr : iterate body budget s = .ok r) : iterate body' budget s = .ok r :=
  iterate_maps (f := id) (g := id) (fun s out ho => by rw [Sum.map_id_id]; exact h s out ho) hr

def Reaches (body : σ → Run (σ ⊕ ρ)) (k : ℕ) (s s' : σ) : Prop :=
  ∀ budget, iterate body (budget + k) s = iterate body budget s'

lemma Reaches.refl (s : σ) : Reaches body 0 s s := fun _ => rfl

lemma Reaches.head (h : body s = .ok (.inl t)) (hr : Reaches body k t s') :
    Reaches body (k + 1) s s' := by
  intro budget
  rw [← Nat.add_assoc, iterate_next h, hr budget]

theorem Reaches.exit (h : Reaches body k s s')
    (hr : body s' = .ok (.inr r)) (hb : k < budget) : iterate body budget s = .ok r := by
  obtain ⟨rest, rfl⟩ : ∃ rest, budget = rest + 1 + k := ⟨budget - k - 1, by omega⟩
  rw [h (rest + 1), iterate_exit hr]

end

end Eglibc.Checked
