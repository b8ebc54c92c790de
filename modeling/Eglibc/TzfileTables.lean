import Eglibc.TzfileRead

/-!
# What the tables of a time zone file say

The tables of a file as lists, and that the block holds them once they have been read.
Every store up to there is inside of the block.
-/
namespace Eglibc.TzfileRead
open Checked Endian

/-! ### Rules -/

section
variable {α β σ τ : Type} {R : σ → α → Prop} {S : τ → β → Prop}

variable {spec : Option σ} {x : Run (Option α)}

/-- A step that follows a step of the specification, and rejects where that does. -/
def Follows (R : σ → α → Prop) (spec : Option σ) (x : Run (Option α)) : Prop :=
  Returns x (Option.Rel R spec)

lemma follows_some (h : R s a) : Follows R (some s) (.ok (some a)) :=
  ⟨some a, rfl, .some h⟩

lemma follows_none : Follows R none (.ok none) := ⟨none, rfl, .none⟩

lemma Follows.imp (hx : Follows R spec x)
    (h : ∀ s a, spec = some s → R s a → R' s a) : Follows R' spec x := by
  obtain ⟨r, rfl, hr⟩ := hx
  cases hr with
  | none => exact follows_none
  | some hrel => exact follows_some (h _ _ rfl hrel)

lemma Follows.specNext (hx : Follows R spec x)
    (h : ∀ s a, R s a → ∃ t, g s = some t ∧ R' t a) : Follows R' (spec >>= g) x := by
  obtain ⟨r, rfl, hr⟩ := hx
  cases hr with
  | none => exact follows_none
  | some hrel =>
    obtain ⟨t, ht, ht'⟩ := h _ _ hrel
    change Follows R' (g _) _
    rw [ht]
    exact follows_some ht'

lemma Follows.next (hx : Follows R spec x)
    (hf : ∀ s a, R s a → Follows S (g s) (f a)) : Follows S (spec >>= g) (unlessLost x f) := by
  obtain ⟨r, rfl, hr⟩ := hx
  cases hr with
  | none => exact follows_none
  | some h => exact hf _ _ h

end

namespace Block
variable {b : Block} {a n : ℕ} {xs : List UInt8}

lemma store_eq (h : a + xs.length ≤ b.size) :
    b.store a xs = .ok { b with mem := Flat.write b.mem a xs } := if_pos h

lemma load_eq (h : a + n ≤ b.size) : b.load a n = .ok (Flat.read b.mem a n) := if_pos h

lemma load_one (h : a < b.size) : b.load a 1 = .ok [b.mem a] := load_eq h

end Block

@[simp] lemma length_bytes64 (x : ℤ) : (bytes64 x).length = 8 := length_leBytes 8 _

/-! ### The layout -/

structure Layout.Fits (l : Layout) (rem : ℕ) : Prop where
  width : l.width = 4 ∨ l.width = 8
  idxs : l.transitions * 9 ≤ l.typesIdx
  names : l.zoneNames + l.chars ≤ l.leapsIdx
  leaps : l.leapsIdx + l.leaps * 16 = l.totalSize
  chars : l.chars < sizeMax
  bounded : l.blockSize ≤ sizeMax
  tzspec : l.width = 8 → rem = l.transitions * 9 + l.types * 6 + l.chars + l.leaps * 12 +
    l.isstd + l.isgmt + 1 + l.tzspecLen

lemma le_align (x : ℕ) : x ≤ align x := by
  unfold align
  omega

lemma align_le (x : ℕ) : align x ≤ x + 7 := by
  unfold align
  omega

lemma tzspecLength_some (hsum : c.transitions * 9 + c.types * 6 + c.chars < 2 ^ 64)
    (h : tzspecLength 8 c rem totalSize = some len) :
    rem = c.transitions * 9 + c.types * 6 + c.chars + c.leaps * 12 + c.isstd + c.isgmt + 1 + len := by
  unfold tzspecLength at h
  rw [if_pos rfl, Nat.mod_eq_of_lt hsum] at h
  dsimp only at h
  split_ifs at h
  cases h
  omega

lemma tzspecLength_le (htotal : totalSize ≤ sizeMax)
    (h : tzspecLength width c rem totalSize = some len) : totalSize + len ≤ sizeMax := by
  unfold tzspecLength at h
  dsimp only at h
  split_ifs at h <;> cases h <;> omega

lemma layout_fits (hw : width = 4 ∨ width = 8)
    (h : layout width c rem extra = some l) : l.Fits rem := by
  unfold layout at h
  have halign := le_align (c.transitions * 9)
  have halign' := le_align (align (c.transitions * 9) + c.types * 16 + c.chars)
  have halign'' := align_le (align (c.transitions * 9) + c.types * 16 + c.chars)
  dsimp only at h
  split_ifs at h with h₁ h₂ h₃ h₄ h₅
  have hsum : c.transitions * 9 + c.types * 6 + c.chars < 2 ^ 64 := by
    unfold sizeMax at h₁ h₂ h₃
    omega
  cases hlen : tzspecLength width c rem
      (align (align (c.transitions * 9) + c.types * 16 + c.chars) + c.leaps * 16) with
  | none => simp [hlen] at h
  | some len =>
    rw [hlen] at h
    dsimp only at h
    split_ifs at h with hextra
    cases h
    have hle := tzspecLength_le (by omega) hlen
    refine ⟨hw, halign, halign', rfl, ?_, ?_, ?_⟩
    · dsimp only
      omega
    · unfold Layout.blockSize
      dsimp only
      omega
    · rintro rfl
      exact tzspecLength_some hsum hlen

lemma findTables_width (h : findTables file = some (width, c, rest)) : width = 4 ∨ width = 8 := by
  unfold findTables at h
  rw [Option.bind_eq_bind, Option.bind_eq_some_iff] at h
  obtain ⟨head, -, h⟩ := h
  dsimp only at h
  split_ifs at h
  · rw [Option.bind_eq_some_iff] at h
    obtain ⟨head', -, h⟩ := h
    cases h
    exact .inr rfl
  · cases h
    exact .inl rfl

lemma prepare_fits (h : prepare heap file extra = some (l, r)) :
    l.Fits r.rest.length ∧ r.block.size = l.blockSize := by
  unfold prepare at h
  rw [Option.bind_eq_bind, Option.bind_eq_some_iff] at h
  obtain ⟨⟨width, c, rest⟩, hfind, h⟩ := h
  rw [Option.bind_eq_bind, Option.bind_eq_some_iff] at h
  obtain ⟨l', hlayout, h⟩ := h
  split_ifs at h
  cases h
  refine ⟨layout_fits (findTables_width hfind) hlayout, rfl⟩

/-! ### The tables -/

def takeBytes (n : ℕ) (bs : List UInt8) : Option (List UInt8 × List UInt8) :=
  if bs.length < n then none else some (bs.take n, bs.drop n)

lemma takeBytes_some (h : takeBytes n bs = some (xs, rest)) :
    xs.length = n ∧ xs = bs.take n ∧ rest = bs.drop n := by
  unfold takeBytes at h
  split_ifs at h with hlen
  cases h
  exact ⟨by rw [List.length_take]; omega, rfl, rfl⟩

lemma takeBytes_add (m n : ℕ) (bs : List UInt8) : takeBytes (m + n) bs = (do
    let (xs, bs) ← takeBytes m bs
    let (ys, bs) ← takeBytes n bs
    some (xs ++ ys, bs)) := by
  rw [takeBytes, takeBytes]
  by_cases h₁ : bs.length < m
  · rw [if_pos h₁, if_pos (by omega)]
    rfl
  rw [if_neg h₁]
  change _ = (takeBytes n (bs.drop m) >>= fun p => some (bs.take m ++ p.1, p.2))
  rw [takeBytes, List.length_drop]
  by_cases h₂ : bs.length < m + n
  · rw [if_pos h₂, if_pos (by omega)]
    rfl
  · rw [if_neg h₂, if_neg (by omega)]
    change _ = some (bs.take m ++ (bs.drop m).take n, (bs.drop m).drop n)
    rw [← List.take_add, List.drop_drop]

/-- The fields `isdst` and `idx` of a type, which follow its offset. -/
def parseType (chars : ℕ) : List UInt8 → Option ((UInt8 × UInt8) × List UInt8)
  | _ :: _ :: _ :: _ :: isdst :: idx :: bs =>
    if isdst.toNat ≤ 1 ∧ idx.toNat ≤ chars then some ((isdst, idx), bs) else none
  | _ => none

def parseTypes (chars : ℕ) : ℕ → List UInt8 → Option (List (UInt8 × UInt8) × List UInt8)
  | 0, bs => some ([], bs)
  | more + 1, bs => do
    let (type, bs) ← parseType chars bs
    let (types, bs) ← parseTypes chars more bs
    some (type :: types, bs)

structure Tables where
  typeIdxs : List UInt8
  types : List (UInt8 × UInt8)
  rest : List UInt8
  deriving DecidableEq

def parseTransitions (l : Layout) (bs : List UInt8) : Option (List UInt8 × List UInt8) := do
  let (_, bs) ← takeBytes (l.transitions * l.width) bs
  takeBytes l.transitions bs

def skipRest (l : Layout) (bs : List UInt8) : Option (List UInt8) := do
  let (_, bs) ← takeBytes l.chars bs
  let (_, bs) ← takeBytes (l.leaps * (l.width + 4)) bs
  some bs

def tables (l : Layout) (bs : List UInt8) : Option Tables := do
  let (typeIdxs, bs) ← parseTransitions l bs
  if ∀ x ∈ typeIdxs, x.toNat < l.types then
    let (types, bs) ← parseTypes l.chars l.types bs
    let rest ← skipRest l bs
    some ⟨typeIdxs, types, rest⟩
  else none

structure Holds (l : Layout) (typeIdxs : List UInt8) (types : List (UInt8 × UInt8))
    (m : ℕ → UInt8) : Prop where
  typeIdxs : ∀ i < l.transitions, m (l.typeIdxsAt + i) = typeIdxs.getD i 0
  isdst : ∀ i < l.types, m (l.typesIdx + i * 16 + 8) = (types.getD i (0, 0)).1
  idx : ∀ i < l.types, m (l.typesIdx + i * 16 + 9) = (types.getD i (0, 0)).2

section
variable {l : Layout} {rem : ℕ} {r : Reader}

lemma fread_follows (h : a + n ≤ r.block.size) :
    Follows (fun p r' => r'.rest = p.2 ∧ r'.block.size = r.block.size ∧
      r'.block.mem = Flat.write r.block.mem a p.1) (takeBytes n r.rest) (fread n a r) := by
  rw [fread, Block.store_eq (by simp; omega), ok_bind, takeBytes]
  split_ifs
  · exact follows_none
  · exact follows_some ⟨rfl, rfl, rfl⟩

lemma parseTransitions_eq (l : Layout) (bs : List UInt8) : parseTransitions l bs =
    if bs.length < l.transitions * (l.width + 1) then none
    else some ((bs.drop (l.transitions * l.width)).take l.transitions,
      bs.drop (l.transitions * (l.width + 1))) := by
  have hsum : l.transitions * (l.width + 1) = l.transitions * l.width + l.transitions := by ring
  rw [hsum]
  by_cases h₁ : bs.length < l.transitions * l.width
  · rw [if_pos (by omega), parseTransitions, takeBytes, if_pos h₁]
    rfl
  rw [parseTransitions, takeBytes, if_neg h₁]
  change takeBytes l.transitions (bs.drop (l.transitions * l.width)) = _
  rw [takeBytes, List.length_drop, List.drop_drop]
  by_cases h₂ : bs.length < l.transitions * l.width + l.transitions
  · rw [if_pos (by omega), if_pos h₂]
  · rw [if_neg (by omega), if_neg h₂]

lemma readTransitions_follows (hfit : l.Fits rem) (hsize : r.block.size = l.blockSize) :
    Follows (fun p r' => r'.rest = p.2 ∧ r'.block.size = r.block.size ∧ p.1.length = l.transitions ∧
      ∀ i < l.transitions, r'.block.mem (l.typeIdxsAt + i) = p.1.getD i 0)
      (parseTransitions l r.rest) (readTransitions l r) := by
  have hroom : l.transitions * 9 ≤ r.block.size := by
    have := hfit.idxs
    have := hfit.names
    have := hfit.leaps
    rw [hsize, Layout.blockSize]
    unfold Layout.zoneNames at *
    omega
  rcases hfit.width with hw | hw
  · -- times of four bytes; the types are read on their own
    rw [readTransitions, if_neg (by omega), parseTransitions, hw]
    refine (fread_follows (r := r) (by omega)).next ?_
    rintro ⟨_, bs⟩ r' ⟨hrest, hsize', -⟩
    have hread := fread_follows (r := r') (n := l.transitions) (a := l.typeIdxsAt)
      (by rw [hsize', Layout.typeIdxsAt]; omega)
    rw [hrest] at hread
    refine hread.imp ?_
    rintro ⟨typeIdxs, rest⟩ r'' hspec ⟨hrest', hsize'', hmem⟩
    have hlen := (takeBytes_some hspec).1
    refine ⟨hrest', hsize''.trans hsize', hlen, fun i hi => ?_⟩
    rw [hmem]
    exact Flat.write_add (hlen ▸ hi) 0
  -- times of eight bytes; their types follow in the same read
  rw [readTransitions, if_pos hw, parseTransitions_eq, hw]
  have hread := fread_follows (r := r) (n := l.transitions * 9) (a := 0) (by omega)
  rw [takeBytes] at hread
  split_ifs at hread ⊢ with hshort
  · exact hread.imp nofun
  obtain ⟨_, hrun, ⟨hrest, hsize', hmem⟩⟩ := hread
  rw [hrun]
  refine follows_some ⟨hrest, hsize', ?_, fun i hi => ?_⟩
  · rw [List.length_take, List.length_drop]
    omega
  · rw [hmem, ← Nat.zero_add (l.typeIdxsAt + i), Layout.typeIdxsAt,
      Flat.write_add (by simp; omega) 0, List.getD_eq_getElem?_getD,
      List.getD_eq_getElem?_getD, List.getElem?_take_of_lt (by omega),
      List.getElem?_take_of_lt hi, List.getElem?_drop]

lemma indicesOk_eq (h : l.typeIdxsAt + l.transitions ≤ b.size) (hi : i ≤ l.transitions) :
    indicesOk l b i = .ok (decide (∀ j < i, (b.mem (l.typeIdxsAt + j)).toNat < l.types)) := by
  induction i with
  | zero => simp [indicesOk]
  | succ i ih =>
    rw [indicesOk, ih (by omega), ok_bind]
    by_cases hall : ∀ j < i, (b.mem (l.typeIdxsAt + j)).toNat < l.types
    · rw [if_pos (by simpa using hall), Block.load_one (by omega), ok_bind]
      refine congrArg Except.ok (decide_eq_decide.mpr ⟨fun hi j hj => ?_, fun hall' => hall' i (by omega)⟩)
      obtain rfl | hlt := Nat.eq_or_lt_of_le (Nat.le_of_lt_succ hj)
      · exact hi
      · exact hall j hlt
    rw [if_neg (by simpa using hall)]
    symm
    simp only [Except.ok.injEq, decide_eq_false_iff_not]
    exact fun hall' => hall fun j hj => hall' j (by omega)

lemma decodeDown_returns (h : i * 8 ≤ b.size) :
    Returns (decodeDown i b) fun b' => b'.size = b.size ∧ ∀ a ≥ i * 8, b'.mem a = b.mem a := by
  induction i generalizing b with
  | zero => exact returns_ok ⟨rfl, fun _ _ => rfl⟩
  | succ i ih =>
    rw [decodeDown, Block.load_eq (by omega), ok_bind,
      Block.store_eq (by simp; omega), ok_bind]
    refine (ih (b := ⟨b.size, _⟩) (by dsimp only; omega)).mono ?_
    rintro b' ⟨hsize, hkeep⟩
    refine ⟨hsize, fun a ha => ?_⟩
    rw [hkeep a (by omega)]
    exact Flat.write_of_ge (by simp; omega)

lemma decodeUp_returns (h : i * 8 ≤ b.size) :
    Returns (decodeUp i b) fun b' => b'.size = b.size ∧ ∀ a ≥ i * 8, b'.mem a = b.mem a := by
  induction i with
  | zero => exact returns_ok ⟨rfl, fun _ _ => rfl⟩
  | succ i ih =>
    refine (ih (by omega)).bind ?_
    rintro b' ⟨hsize, hkeep⟩
    rw [Block.load_eq (by omega), ok_bind,
      Block.store_eq (by simp; omega)]
    refine returns_ok ⟨hsize, fun a ha => ?_⟩
    dsimp only
    rw [Flat.write_of_ge (by simp; omega), hkeep a (by omega)]

lemma decodeTransitions_returns (h : l.typeIdxsAt ≤ b.size) :
    Returns (decodeTransitions l b) fun b' =>
      b'.size = b.size ∧ ∀ a ≥ l.typeIdxsAt, b'.mem a = b.mem a := by
  unfold decodeTransitions
  split_ifs
  · exact decodeDown_returns h
  · exact decodeUp_returns h

lemma readType_cons (l : Layout) (i : ℕ) (b : Block) (x0 x1 x2 x3 c : UInt8) (rest : List UInt8) :
    readType l i ⟨b, x0 :: x1 :: x2 :: x3 :: c :: rest⟩ =
      if 1 < c.toNat then .ok none
      else (do
        let b ← b.store (l.typesIdx + i * 16 + 8) [c]
        if l.chars < size (getc rest).1 then .ok none
        else do
          let b ← b.store (l.typesIdx + i * 16 + 9) [UInt8.ofNat (getc rest).1.toNat]
          let b ← b.store (l.typesIdx + i * 16) (bytes64 (decode [x0, x1, x2, x3]))
          .ok (some ⟨b, (getc rest).2⟩)) := by
  have hc := c.toNat_lt
  have hmod : (c.toNat : ℤ) % 2 ^ 32 > 1 ↔ 1 < c.toNat := by omega
  rw [readType, if_neg (by simp)]
  simp only [List.drop_succ_cons, List.drop_zero, getc, hmod, Int.toNat_natCast, UInt8.ofNat_toNat]
  rfl

lemma readType_follows (hchars : l.chars < sizeMax) (hroom : l.typesIdx + i * 16 + 16 ≤ r.block.size) :
    Follows (fun p r' => r'.rest = p.2 ∧ r'.block.size = r.block.size ∧
        r'.block.mem (l.typesIdx + i * 16 + 8) = p.1.1 ∧
        r'.block.mem (l.typesIdx + i * 16 + 9) = p.1.2 ∧
        ∀ a, a < l.typesIdx + i * 16 ∨ l.typesIdx + i * 16 + 16 ≤ a → r'.block.mem a = r.block.mem a)
      (parseType l.chars r.rest) (readType l i r) := by
  obtain ⟨block, rest⟩ := r
  dsimp only at hroom ⊢
  match rest with
  | [] | [_] | [_, _] | [_, _, _] => exact follows_none
  | [_, _, _, _] => exact follows_none
  | [x0, x1, x2, x3, isdst] =>
    -- the end of the file is taken for the largest index
    have hend : l.chars < size (getc []).1 := hchars
    rw [readType_cons, Block.store_eq (by simp; omega), ok_bind, if_pos hend, ite_self]
    exact follows_none
  | x0 :: x1 :: x2 :: x3 :: isdst :: idx :: rest =>
    have hidx : size (getc (idx :: rest)).1 = idx.toNat := by
      have := idx.toNat_lt
      rw [getc, size]
      omega
    rw [readType_cons, parseType, hidx]
    by_cases hdst : isdst.toNat ≤ 1
    · rw [if_neg (show ¬ 1 < isdst.toNat by omega), Block.store_eq (by simp; omega), ok_bind]
      by_cases hle : idx.toNat ≤ l.chars
      · rw [if_neg (show ¬ l.chars < idx.toNat by omega), if_pos (And.intro hdst hle),
          Block.store_eq (by simp; omega), ok_bind, Block.store_eq (by simp; omega), ok_bind, getc,
          Int.toNat_natCast, UInt8.ofNat_toNat]
        refine follows_some ⟨rfl, rfl, ?_, ?_, fun a ha => ?_⟩
        · dsimp only
          rw [Flat.write_of_ge (by simp), Flat.write_of_lt (by omega), Flat.write_singleton]
        · dsimp only
          rw [Flat.write_of_ge (by simp), Flat.write_singleton]
        · dsimp only
          rcases ha with ha | ha
          · rw [Flat.write_of_lt ha, Flat.write_of_lt (by omega), Flat.write_of_lt (by omega)]
          · rw [Flat.write_of_ge (by simp; omega), Flat.write_of_ge (by simp; omega),
              Flat.write_of_ge (by simp; omega)]
      · rw [if_pos (show l.chars < idx.toNat by omega), if_neg (fun h => hle h.2)]
        exact follows_none
    · rw [if_pos (show 1 < isdst.toNat by omega), if_neg (fun h => hdst h.1)]
      exact follows_none

lemma readTypes_follows (hchars : l.chars < sizeMax)
    (hroom : l.typesIdx + (i + more) * 16 ≤ r.block.size) :
    Follows (fun p r' => r'.rest = p.2 ∧ r'.block.size = r.block.size ∧ p.1.length = more ∧
        (∀ j < more, r'.block.mem (l.typesIdx + (i + j) * 16 + 8) = (p.1.getD j (0, 0)).1 ∧
          r'.block.mem (l.typesIdx + (i + j) * 16 + 9) = (p.1.getD j (0, 0)).2) ∧
        ∀ a < l.typesIdx + i * 16, r'.block.mem a = r.block.mem a)
      (parseTypes l.chars more r.rest) (readTypes l more i r) := by
  induction more generalizing i r with
  | zero => exact follows_some ⟨rfl, rfl, rfl, nofun, fun _ _ => rfl⟩
  | succ more ih =>
    refine (readType_follows hchars (by omega)).next ?_
    rintro ⟨type, bs⟩ r1 ⟨hrest, hsize, hdst, hidx, hkeep⟩
    have hmore := ih (r := r1) (i := i + 1) (by omega)
    rw [hrest] at hmore
    refine hmore.specNext ?_
    rintro ⟨types, bs'⟩ r2 ⟨hrest', hsize', hlen, htypes, hkeep'⟩
    refine ⟨_, rfl, hrest', hsize'.trans hsize, by rw [List.length_cons, hlen], ?_, fun a ha => ?_⟩
    · intro j hj
      cases j with
      | zero =>
        rw [Nat.add_zero, hkeep' _ (by omega), hkeep' _ (by omega)]
        exact ⟨hdst, hidx⟩
      | succ j =>
        have hj' := htypes j (by omega)
        rwa [show i + 1 + j = i + (j + 1) by ring] at hj'
    · rw [hkeep' a (by omega), hkeep a (.inl ha)]

lemma readLeap_follows (hroom : l.leapsIdx + i * 16 + 16 ≤ r.block.size) :
    Follows (fun p r' => r'.rest = p.2 ∧ r'.block.size = r.block.size ∧
        ∀ a < l.leapsIdx, r'.block.mem a = r.block.mem a)
      (takeBytes (l.width + 4) r.rest) (readLeap l i r) := by
  rw [readLeap, takeBytes]
  by_cases h₁ : r.rest.length < l.width
  · rw [if_pos h₁, if_pos (by omega)]
    exact follows_none
  rw [if_neg h₁]
  dsimp only
  rw [Block.store_eq (by simp; omega), ok_bind, List.length_drop]
  by_cases h₂ : r.rest.length < l.width + 4
  · rw [if_pos h₂, if_pos (show r.rest.length - l.width < 4 by omega)]
    exact follows_none
  rw [if_neg h₂, if_neg (show ¬ r.rest.length - l.width < 4 by omega),
    Block.store_eq (by simp; omega), ok_bind]
  refine follows_some ⟨List.drop_drop, rfl, fun a ha => ?_⟩
  dsimp only
  rw [Flat.write_of_lt (by omega), Flat.write_of_lt (by omega)]

lemma readLeaps_follows (hroom : l.leapsIdx + (i + more) * 16 ≤ r.block.size) :
    Follows (fun p r' => r'.rest = p.2 ∧ r'.block.size = r.block.size ∧
        ∀ a < l.leapsIdx, r'.block.mem a = r.block.mem a)
      (takeBytes (more * (l.width + 4)) r.rest) (readLeaps l more i r) := by
  induction more generalizing i r with
  | zero =>
    rw [Nat.zero_mul]
    exact follows_some ⟨rfl, rfl, fun _ _ => rfl⟩
  | succ more ih =>
    rw [readLeaps, Nat.succ_mul, Nat.add_comm, takeBytes_add]
    refine (readLeap_follows (by omega)).next ?_
    rintro ⟨_, bs⟩ r1 ⟨hrest, hsize, hkeep⟩
    have hmore := ih (r := r1) (i := i + 1) (by omega)
    rw [hrest] at hmore
    refine hmore.specNext ?_
    rintro ⟨_, bs'⟩ r2 ⟨hrest', hsize', hkeep'⟩
    exact ⟨_, rfl, hrest', hsize'.trans hsize, fun a ha => (hkeep' a ha).trans (hkeep a ha)⟩

lemma readRest_follows (hnames : l.zoneNames + l.chars ≤ l.leapsIdx)
    (hleaps : l.leapsIdx + l.leaps * 16 ≤ r.block.size) :
    Follows (fun bs r' => r'.rest = bs ∧ r'.block.size = r.block.size ∧
        ∀ a < l.zoneNames, r'.block.mem a = r.block.mem a)
      (skipRest l r.rest) (unlessLost (fread l.chars l.zoneNames r) (readLeaps l l.leaps 0)) := by
  refine (fread_follows (by omega)).next ?_
  rintro ⟨_, bs⟩ r1 ⟨hrest, hsize, hmem⟩
  have hroom : l.leapsIdx + (0 + l.leaps) * 16 ≤ r1.block.size := by omega
  have hmore := readLeaps_follows hroom
  rw [hrest] at hmore
  refine hmore.specNext ?_
  rintro ⟨_, bs'⟩ r2 ⟨hrest', hsize', hkeep⟩
  refine ⟨_, rfl, hrest', hsize'.trans hsize, fun a ha => ?_⟩
  rw [hkeep a (by omega), hmem, Flat.write_of_lt ha]

structure Represents (l : Layout) (tb : Tables) (r : Reader) : Prop where
  rest : r.rest = tb.rest
  size : r.block.size = l.blockSize
  typeIdxs_length : tb.typeIdxs.length = l.transitions
  typeIdxs_lt : ∀ x ∈ tb.typeIdxs, x.toNat < l.types
  types_length : tb.types.length = l.types
  holds : Holds l tb.typeIdxs tb.types r.block.mem

theorem readTables_follows (hfit : l.Fits rem) (hsize : r.block.size = l.blockSize) :
    Follows (Represents l) (tables l r.rest) (readTables l r) := by
  have hidxs := hfit.idxs
  have hnames := hfit.names
  have hleaps := hfit.leaps
  have htotal : l.totalSize ≤ r.block.size := by
    rw [hsize, Layout.blockSize]
    omega
  unfold Layout.zoneNames at hnames
  refine (readTransitions_follows hfit hsize).next ?_
  rintro ⟨typeIdxs, bs⟩ r1 ⟨hrest1, hsize1, hlen1, hmem1⟩
  dsimp only at hrest1 hlen1 hmem1 ⊢
  rw [indicesOk_eq (by rw [hsize1, Layout.typeIdxsAt]; omega) le_rfl, ok_bind]
  have hall : (∀ x ∈ typeIdxs, x.toNat < l.types) ↔
      ∀ j < l.transitions, (r1.block.mem (l.typeIdxsAt + j)).toNat < l.types := by
    rw [← hlen1]
    constructor
    · intro hmem j hj
      rw [hmem1 j (hlen1 ▸ hj), List.getD_eq_getElem _ _ hj]
      exact hmem _ (List.getElem_mem hj)
    · intro hmem x hx
      obtain ⟨j, hj, rfl⟩ := List.mem_iff_getElem.mp hx
      have hlt := hmem j hj
      rwa [hmem1 j (hlen1 ▸ hj), List.getD_eq_getElem _ _ hj] at hlt
  by_cases hok : ∀ x ∈ typeIdxs, x.toNat < l.types
  · rw [if_pos hok, if_pos (by simpa using hall.mp hok)]
    obtain ⟨b2, hrun2, hsize2, hkeep2⟩ := decodeTransitions_returns (l := l) (b := r1.block)
      (by rw [hsize1, Layout.typeIdxsAt]; omega)
    rw [hrun2, ok_bind]
    have htypes := readTypes_follows (r := ⟨b2, r1.rest⟩) hfit.chars
      (show l.typesIdx + (0 + l.types) * 16 ≤ b2.size by omega)
    dsimp only at htypes
    rw [hrest1] at htypes
    rw [hrest1]
    refine htypes.next ?_
    rintro ⟨types, bs3⟩ r3 ⟨hrest3, hsize3, hlen3, htypes3, hkeep3⟩
    have hskip := readRest_follows (l := l) (r := r3) hfit.names (by omega)
    rw [hrest3] at hskip
    refine hskip.specNext ?_
    rintro rest r4 ⟨hrest4, hsize4, hkeep4⟩
    have hroom : l.typeIdxsAt + l.transitions ≤ l.typesIdx := by
      unfold Layout.typeIdxsAt
      omega
    unfold Layout.zoneNames at hkeep4
    refine ⟨_, rfl, hrest4, by omega, hlen1, hok, hlen3, fun i hi => ?_, fun i hi => ?_,
      fun i hi => ?_⟩
    · rw [hkeep4 _ (by omega), hkeep3 _ (by omega), hkeep2 _ (by omega), hmem1 i hi]
    · have htype := (htypes3 i hi).1
      rw [Nat.zero_add] at htype
      rw [hkeep4 _ (by omega), htype]
    · have htype := (htypes3 i hi).2
      rw [Nat.zero_add] at htype
      rw [hkeep4 _ (by omega), htype]
  · rw [if_neg hok, if_neg (by simpa using mt hall.mpr hok)]
    exact follows_none

end

end Eglibc.TzfileRead
