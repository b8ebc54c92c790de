import Mathlib.Data.List.GetD
import Mathlib.Data.List.Range
import Mathlib.Tactic

/-!
# Flat memory

A memory gives every address a value. `read` takes a range out of it, `write`
puts a list into it and leaves every other address as it was.
-/
namespace Eglibc.Flat

variable {α : Type} {m m' : ℕ → α} {a b i n : ℕ} {xs : List α}

def read (m : ℕ → α) (a n : ℕ) : List α := (List.range n).map fun j => m (a + j)

def write (m : ℕ → α) (a : ℕ) (xs : List α) : ℕ → α :=
  fun i => if a ≤ i then xs.getD (i - a) (m i) else m i

def copy (m : ℕ → α) (dst src n : ℕ) : ℕ → α := write m dst (read m src n)

@[simp] lemma length_read : (read m a n).length = n := by simp [read]

lemma read_add (m : ℕ → α) (a n k : ℕ) : read m a (n + k) = read m a n ++ read m (a + n) k := by
  simp [read, List.range_add, Nat.add_assoc, Function.comp_def]

lemma read_congr (h : ∀ i, a ≤ i → i < a + n → m' i = m i) : read m' a n = read m a n := by
  apply List.map_congr_left
  intro j hj
  rw [List.mem_range] at hj
  exact h _ (by omega) (by omega)

lemma write_of_lt (h : i < a) : write m a xs i = m i := by
  simp [write, Nat.not_le.mpr h]

lemma write_of_ge (h : a + xs.length ≤ i) : write m a xs i = m i := by
  have hle : a ≤ i := by omega
  simp only [write, if_pos hle]
  rw [List.getD_eq_default _ _ (by omega)]

lemma write_of_mem (hle : a ≤ i) (h : i < a + xs.length) :
    write m a xs i = xs.get ⟨i - a, by omega⟩ := by
  simp only [write, if_pos hle]
  rw [List.getD_eq_getElem _ _ (by omega)]
  rfl

lemma write_add (h : i < xs.length) (d : α) : write m a xs (a + i) = xs.getD i d := by
  rw [write_of_mem (by omega) (by omega), List.getD_eq_getElem _ _ h]
  simp

@[simp] lemma write_singleton (m : ℕ → α) (a : ℕ) (x : α) : write m a [x] a = x := by simp [write]

lemma read_write (m : ℕ → α) (a : ℕ) (xs : List α) : read (write m a xs) a xs.length = xs := by
  apply List.ext_getElem
  · simp
  intro i hi hi'
  have hmem : write m a xs (a + i) = xs.get ⟨a + i - a, by omega⟩ :=
    write_of_mem (by omega) (by omega)
  simp [read, hmem]

lemma read_write_of_disjoint (h : b + n ≤ a ∨ a + xs.length ≤ b) :
    read (write m a xs) b n = read m b n := by
  apply read_congr
  intro i hi hi'
  obtain h | h := h
  · exact write_of_lt (by omega)
  · exact write_of_ge (by omega)

lemma write_read_self (m : ℕ → α) (a n : ℕ) : write m a (read m a n) = m := by
  funext i
  by_cases hi : a ≤ i ∧ i < a + n
  · rw [write_of_mem hi.1 (by simpa using hi.2)]
    simp [read, hi.1]
  · by_cases hlt : i < a
    · exact write_of_lt hlt
    · exact write_of_ge (by simp; omega)

lemma copy_of_lt (h : i < dst) : copy m dst src n i = m i := write_of_lt h

lemma copy_of_ge (h : dst + n ≤ i) : copy m dst src n i = m i :=
  write_of_ge (by simpa using h)

lemma read_copy (m : ℕ → α) (dst src n : ℕ) : read (copy m dst src n) dst n = read m src n := by
  have := read_write m dst (read m src n)
  rwa [length_read] at this

lemma copy_of_mem (hle : dst ≤ i) (h : i < dst + n) : copy m dst src n i = m (src + (i - dst)) := by
  rw [copy, write_of_mem hle (by simpa using h)]
  simp [read]

lemma foldl_copy (hdisjoint : src + n ≤ dst ∨ dst + n ≤ src)
    (starts : List ℕ) (hin : ∀ k ∈ starts, k + len ≤ n) (m : ℕ → α) :
    starts.foldl (fun m k => copy m (dst + k) (src + k) len) m = fun i =>
      if dst ≤ i ∧ i < dst + n ∧ ∃ k ∈ starts, k ≤ i - dst ∧ i - dst < k + len then
        m (src + (i - dst))
      else m i := by
  induction starts generalizing m with
  | nil => simp
  | cons k starts ih =>
    have hk := hin k List.mem_cons_self
    rw [List.foldl_cons, ih fun j hj => hin j (List.mem_cons_of_mem _ hj)]
    funext i
    -- the source is never written, so later pieces read what the first one read
    have hsource : ∀ j < n, copy m (dst + k) (src + k) len (src + j) = m (src + j) := by
      intro j hj
      obtain h | h := hdisjoint
      · exact copy_of_lt (by omega)
      · exact copy_of_ge (by omega)
    by_cases hi : dst ≤ i ∧ i < dst + n
    · obtain ⟨hlo, hhi⟩ := hi
      rw [hsource (i - dst) (by omega)]
      by_cases hrest : ∃ j ∈ starts, j ≤ i - dst ∧ i - dst < j + len
      · have hall : ∃ j ∈ k :: starts, j ≤ i - dst ∧ i - dst < j + len := by
          obtain ⟨j, hj, hcover⟩ := hrest
          exact ⟨j, List.mem_cons_of_mem _ hj, hcover⟩
        rw [if_pos ⟨hlo, hhi, hrest⟩, if_pos ⟨hlo, hhi, hall⟩]
      rw [if_neg fun h => hrest h.2.2]
      by_cases hfirst : k ≤ i - dst ∧ i - dst < k + len
      · rw [if_pos ⟨hlo, hhi, k, List.mem_cons_self, hfirst⟩, copy_of_mem (by omega) (by omega)]
        congr 1
        omega
      have hnone : ¬ ∃ j ∈ k :: starts, j ≤ i - dst ∧ i - dst < j + len := by
        rintro ⟨j, hj, hcover⟩
        obtain rfl | hj := List.mem_cons.mp hj
        · exact hfirst hcover
        · exact hrest ⟨j, hj, hcover⟩
      rw [if_neg fun h => hnone h.2.2]
      by_cases hlt : i < dst + k
      · exact copy_of_lt hlt
      · exact copy_of_ge (by omega)
    rw [if_neg fun h => hi ⟨h.1, h.2.1⟩, if_neg fun h => hi ⟨h.1, h.2.1⟩]
    by_cases hlt : i < dst + k
    · exact copy_of_lt hlt
    · exact copy_of_ge (by omega)

end Eglibc.Flat
