import Eglibc.Endian
import Eglibc.Segments

/-!
# Words in a file

A file is a list of bytes. Numbers are written with the byte order of the host, one
behind the other, and a reader that knows the place of a word gets the number back.
-/
namespace Eglibc.FileWords
open Checked Segments Endian

variable {α β : Type} {big : Bool} {file : List UInt8} {pos i : ℕ}

def word (big : Bool) (file : List UInt8) (pos : ℕ) : Run ℕ := do
  let bs ← loadRange file pos 4
  .ok (fetched big bs)

def text (file : List UInt8) (pos : ℕ) : Run (List UInt8) :=
  if 0 ∈ file.drop pos then .ok ((file.drop pos).takeWhile (· ≠ 0)) else .error (.read file.length)

lemma fetched_stored (big : Bool) (n v : ℕ) : fetched big (stored big n v) = v % 256 ^ n := by
  cases big
  · exact leNumber_leBytes n v
  · simp [fetched, stored, beNumber, beBytes, leNumber_leBytes]

lemma stored_ne_nil (big : Bool) (n v : ℕ) : stored big (n + 1) v ≠ [] := by
  intro h
  have hlen := length_stored big (n + 1) v
  rw [h] at hlen
  simp at hlen

lemma word_stored {v : ℕ} (h : Holds file pos (stored big 4 v)) :
    word big file pos = .ok (v % 2 ^ 32) := by
  rw [word, h.loadRange (stored_ne_nil _ 3 v) (length_stored _ _ _).symm, ok_bind, fetched_stored]
  rfl

lemma text_eq {s : List UInt8} (h : Holds file pos (s ++ [0])) (hs : 0 ∉ s) :
    text file pos = .ok s := by
  have htake := h.take_drop
  have hdrop : file.drop pos = s ++ 0 :: file.drop (pos + (s.length + 1)) := by
    rw [← List.drop_drop, ← List.take_append_drop (s.length + 1) (file.drop pos)]
    rw [List.length_append, List.length_singleton] at htake
    rw [htake]
    simp
  have hchars : ∀ c ∈ s, decide (c ≠ 0) = true := by
    intro c hc
    have hne : c ≠ 0 := fun h0 => hs (h0 ▸ hc)
    simpa using hne
  rw [text, hdrop, if_pos (by simp), List.takeWhile_append_of_pos hchars]
  simp

lemma holds_self (xs : List β) : Holds xs 0 xs := by
  intro j _
  simp

lemma holds_flatMap {xs : List β} {f : α → List β} {k : ℕ} (hk : ∀ x, (f x).length = k)
    {l : List α} (h : Holds xs pos (l.flatMap f)) {x : α} (hx : l[i]? = some x) :
    Holds xs (pos + k * i) (f x) := by
  induction l generalizing pos i with
  | nil => simp at hx
  | cons y l ih =>
    rw [List.flatMap_cons, holds_append, hk] at h
    cases i with
    | zero =>
      simp only [List.getElem?_cons_zero, Option.some.injEq] at hx
      subst hx
      exact h.1
    | succ i =>
      have hnext := ih h.2 hx
      rwa [show pos + k + k * i = pos + k * (i + 1) by ring] at hnext

lemma length_flatMap {f : α → List β} {k : ℕ} (hk : ∀ x, (f x).length = k) (l : List α) :
    (l.flatMap f).length = l.length * k := by
  simp [List.length_flatMap, hk]

lemma word_of_array {ws : List ℕ} {v : ℕ} (h : Holds file pos (ws.flatMap (stored big 4)))
    (hv : ws[i]? = some v) : word big file (pos + 4 * i) = .ok (v % 2 ^ 32) :=
  word_stored (holds_flatMap (length_stored big 4) h hv)

end Eglibc.FileWords
