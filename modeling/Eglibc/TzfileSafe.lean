import Eglibc.TzfileTables

/-!
# Which time zone files are read safely

A file is read safely exactly if its flags, its name indices and its types do no harm.
-/
namespace Eglibc.TzfileRead
open Checked

variable {l : Layout} {i offset given more rem : ℕ} {bs rest : List UInt8}

def FlagsInside (l : Layout) (offset given : ℕ) (bs : List UInt8) : Prop :=
  ∀ i < min given bs.length, l.typesIdx + i * 16 + offset < l.blockSize

/-- Names start inside of the characters, and there is a transition to standard time or
one type only. -/
def NamesOk (l : Layout) (tb : Tables) : Prop :=
  (∀ type ∈ tb.types, type.2.toNat < l.chars) ∧
    ((∃ x ∈ tb.typeIdxs, (tb.types.getD x.toNat (0, 0)).1 = 0) ∨ l.types = 1)

/-- What the tables and counts have to satisfy. The names only matter for files that have
all of their flags. -/
structure Harmless (l : Layout) (tb : Tables) : Prop where
  isstd : FlagsInside l 10 l.isstd tb.rest
  isgmt : l.isstd ≤ tb.rest.length → FlagsInside l 11 l.isgmt (tb.rest.drop l.isstd)
  names : l.isstd + l.isgmt ≤ tb.rest.length → NamesOk l tb

structure Zone.InBounds (z : Zone) : Prop where
  typeIdxs : ∀ i < z.layout.transitions,
    (z.block.mem (z.layout.typeIdxsAt + i)).toNat < z.layout.types
  names : ∀ i < z.layout.types,
    (z.block.mem (z.layout.typesIdx + i * 16 + 9)).toNat < z.layout.chars

/-! ### Flags -/

/-- Only flags of types, or of what stands behind them, have changed. -/
def Keeps (l : Layout) (m m' : ℕ → UInt8) : Prop :=
  ∀ a, a < l.typesIdx ∨ (a - l.typesIdx) % 16 < 10 → m' a = m a

lemma Keeps.trans (h : Keeps l m m') (h' : Keeps l m' m'') :
    Keeps l m m'' := fun a ha => (h' a ha).trans (h a ha)

lemma keeps_write (m : ℕ → UInt8) (hlow : 10 ≤ offset) (hhigh : offset < 16) (x : UInt8) :
    Keeps l m (Flat.write m (l.typesIdx + i * 16 + offset) [x]) := by
  intro a ha
  by_cases hlt : a < l.typesIdx + i * 16 + offset
  · exact Flat.write_of_lt hlt
  · refine Flat.write_of_ge ?_
    simp
    omega

section
variable {l : Layout} {r : Reader} {offset more i : ℕ}

lemma flagLoop_follows (hlow : 10 ≤ offset) (hhigh : offset < 16)
    (hin : ∀ j < min more r.rest.length, l.typesIdx + (i + j) * 16 + offset < r.block.size) :
    Follows (fun p r' => r'.rest = p.2 ∧ r'.block.size = r.block.size ∧
        Keeps l r.block.mem r'.block.mem)
      (takeBytes more r.rest) (flagLoop l offset more i r) := by
  induction more generalizing i r with
  | zero => exact follows_some ⟨rfl, rfl, fun _ _ => rfl⟩
  | succ more ih =>
    obtain ⟨b, rest⟩ := r
    cases rest with
    | nil => exact follows_none
    | cons c rest =>
      rw [List.length_cons] at hin
      have hfirst := hin 0 (by omega)
      rw [flagLoop]
      dsimp only
      rw [Block.store_eq (by simp; omega), ok_bind, Nat.add_comm more,
        takeBytes_add]
      refine (ih (i := i + 1) (fun j hj => ?_)).specNext ?_
      · have hj' := hin (j + 1) (by dsimp only at hj; omega)
        rwa [show i + (j + 1) = i + 1 + j by ring] at hj'
      · rintro ⟨_, bs⟩ r' ⟨hrest, hsize, hkeep⟩
        exact ⟨_, rfl, hrest, hsize, (keeps_write b.mem hlow hhigh _).trans hkeep⟩

lemma flagLoop_faults (hj : j < min more r.rest.length)
    (hout : r.block.size ≤ l.typesIdx + (i + j) * 16 + offset) :
    ∃ e, flagLoop l offset more i r = .error e := by
  induction more generalizing i j r with
  | zero => omega
  | succ more ih =>
    obtain ⟨b, rest⟩ := r
    cases rest with
    | nil => simp at hj
    | cons c rest =>
      dsimp only at hj hout
      rw [List.length_cons] at hj
      rw [flagLoop]
      dsimp only
      by_cases hfirst : l.typesIdx + i * 16 + offset < b.size
      · rw [Block.store_eq (by simp; omega), ok_bind]
        cases j with
        | zero =>
          omega
        | succ j =>
          refine ih (j := j) (by dsimp only; omega) ?_
          rwa [show i + 1 + j = i + (j + 1) by ring]
      · rw [Block.store, if_neg (by simp; omega)]
        exact ⟨_, rfl⟩

lemma clearLoop_returns (hlow : 10 ≤ offset) (hhigh : offset < 16)
    (h : l.typesIdx + (i + more) * 16 ≤ b.size) :
    Returns (clearLoop l offset more i b) fun b' => b'.size = b.size ∧ Keeps l b.mem b'.mem := by
  induction more generalizing i b with
  | zero => exact returns_ok ⟨rfl, fun _ _ => rfl⟩
  | succ more ih =>
    rw [clearLoop, Block.store_eq (by simp; omega), ok_bind]
    refine (ih (by dsimp only; omega)).mono ?_
    rintro b' ⟨hsize, hkeep⟩
    exact ⟨hsize, (keeps_write b.mem hlow hhigh 0).trans hkeep⟩

lemma readFlags_follows (hlow : 10 ≤ offset) (hhigh : offset < 16)
    (hsize : r.block.size = l.blockSize) (hroom : l.zoneNames ≤ l.blockSize)
    (hin : FlagsInside l offset given r.rest) :
    Follows (fun p r' => r'.rest = p.2 ∧ r'.block.size = l.blockSize ∧
        Keeps l r.block.mem r'.block.mem)
      (takeBytes given r.rest) (readFlags l offset given r) := by
  unfold Layout.zoneNames at hroom
  have hin' : ∀ j < min given r.rest.length,
      l.typesIdx + (0 + j) * 16 + offset < r.block.size := by
    intro j hj
    simpa [hsize] using hin j hj
  rw [← bind_pure (takeBytes given r.rest)]
  refine (flagLoop_follows hlow hhigh hin').next ?_
  rintro p r1 ⟨hrest, hsize1, hkeep⟩
  by_cases hmore : l.types ≤ given
  · rw [Nat.sub_eq_zero_of_le hmore]
    exact follows_some ⟨hrest, hsize1.trans hsize, hkeep⟩
  have hend : l.typesIdx + (given + (l.types - given)) * 16 ≤ r1.block.size := by
    omega
  obtain ⟨b, hrun, hsize2, hkeep2⟩ := clearLoop_returns hlow hhigh hend
  rw [hrun]
  exact follows_some ⟨hrest, by dsimp only; omega, hkeep.trans hkeep2⟩

lemma readFlags_faults (hsize : r.block.size = l.blockSize)
    (hout : ¬ FlagsInside l offset given r.rest) : ∃ e, readFlags l offset given r = .error e := by
  unfold FlagsInside at hout
  push Not at hout
  obtain ⟨j, hj, hout⟩ := hout
  obtain ⟨e, he⟩ := flagLoop_faults (l := l) (r := r) (i := 0) hj
    (by rw [hsize, Nat.zero_add]; exact hout)
  exact ⟨e, by rw [readFlags, he]; rfl⟩

end

lemma Holds.keep {typeIdxs : List UInt8} {types : List (UInt8 × UInt8)}
    {m m' : ℕ → UInt8} (h : Holds l typeIdxs types m)
    (hidxs : l.typeIdxsAt + l.transitions ≤ l.typesIdx) (hkeep : Keeps l m m') :
    Holds l typeIdxs types m' := by
  refine ⟨fun i hi => ?_, fun i hi => ?_, fun i hi => ?_⟩
  · rw [hkeep _ (.inl (by omega))]
    exact h.typeIdxs i hi
  · rw [hkeep _ (.inr (by omega))]
    exact h.isdst i hi
  · rw [hkeep _ (.inr (by omega))]
    exact h.idx i hi

/-! ### The string behind the tables -/

lemma parseType_length
    (h : parseType chars bs = some (type, rest)) : bs.length = 6 + rest.length := by
  unfold parseType at h
  split at h
  · split_ifs at h
    cases h
    simp
    omega
  · cases h

lemma parseTypes_length
    (h : parseTypes chars more bs = some (types, rest)) : bs.length = more * 6 + rest.length := by
  induction more generalizing bs types with
  | zero =>
    cases h
    omega
  | succ more ih =>
    rw [parseTypes, Option.bind_eq_bind, Option.bind_eq_some_iff] at h
    obtain ⟨⟨type, bs1⟩, htype, h⟩ := h
    rw [Option.bind_eq_bind, Option.bind_eq_some_iff] at h
    obtain ⟨⟨types', bs2⟩, htypes, h⟩ := h
    cases h
    have hfirst := parseType_length htype
    have hmore := ih htypes
    omega

lemma takeBytes_length (h : takeBytes n bs = some (xs, rest)) : bs.length = n + rest.length := by
  unfold takeBytes at h
  split_ifs at h
  cases h
  rw [List.length_drop]
  omega

lemma skipRest_length (h : skipRest l bs = some rest) :
    bs.length = l.chars + l.leaps * (l.width + 4) + rest.length := by
  rw [skipRest, Option.bind_eq_bind, Option.bind_eq_some_iff] at h
  obtain ⟨⟨_, bs1⟩, hchars, h⟩ := h
  dsimp only at h
  rw [Option.bind_eq_some_iff] at h
  obtain ⟨⟨_, bs2⟩, hleaps, h⟩ := h
  cases h
  have hchars' := takeBytes_length hchars
  have hleaps' := takeBytes_length hleaps
  dsimp only
  omega

lemma tables_length (h : tables l bs = some tb) :
    bs.length = l.transitions * (l.width + 1) + l.types * 6 + l.chars + l.leaps * (l.width + 4) +
      tb.rest.length := by
  rw [tables, parseTransitions_eq] at h
  split_ifs at h with hshort
  · cases h
  rw [Option.bind_eq_bind, Option.bind_some] at h
  dsimp only at h
  split_ifs at h
  rw [Option.bind_eq_bind, Option.bind_eq_some_iff] at h
  obtain ⟨⟨types, bs1⟩, htypes, h⟩ := h
  rw [Option.bind_eq_bind, Option.bind_eq_some_iff] at h
  obtain ⟨rest, hrest, h⟩ := h
  cases h
  have htypes' := parseTypes_length htypes
  have hrest' := skipRest_length hrest
  rw [List.length_drop] at htypes'
  dsimp only at htypes' hrest' ⊢
  omega

lemma readTzspec_returns (hfit : l.Fits rem)
    (hsize : r.block.size = l.blockSize) (hrest : l.width = 8 → r.rest.length = 1 + l.tzspecLen) :
    Returns (readTzspec l r) fun p =>
      p.2.size = l.blockSize ∧ ∀ a < l.leapsIdx, p.2.mem a = r.block.mem a := by
  have hleaps := hfit.leaps
  have hbound := hfit.bounded
  have hend : l.tzspecAt + l.tzspecLen = r.block.size := by
    rw [hsize, Layout.tzspecAt, Layout.blockSize]
    omega
  have hat : l.leapsIdx ≤ l.tzspecAt := by
    unfold Layout.tzspecAt
    omega
  have hfits : l.tzspecLen < 2 ^ 64 := by
    unfold Layout.blockSize sizeMax at hbound
    omega
  by_cases hw : l.width = 8
  · obtain ⟨b, rest⟩ := r
    rw [readTzspec, if_pos hw]
    have hlen := hrest hw
    dsimp only at hsize hend hlen ⊢
    cases rest with
    | nil =>
      simp at hlen
      omega
    | cons c rest =>
      rw [List.length_cons] at hlen
      have hnext : (getc (c :: rest)).2 = rest := rfl
      rw [hnext]
      by_cases hc : (getc (c :: rest)).1 ≠ 10
      · rw [if_pos hc]
        exact returns_ok ⟨hsize, fun _ _ => rfl⟩
      rw [if_neg hc]
      by_cases hzero : l.tzspecLen = 0
      · -- the length of the string has wrapped, and the file has ended
        have hnil : rest = [] := List.length_eq_zero_iff.mp (by omega)
        have hwrap : sizeSub l.tzspecLen 1 = sizeMax := (sizeSub_one_eq_max hfits).mpr hzero
        rw [hwrap, hnil, List.take_nil, Block.store_eq (by simp; omega), ok_bind,
          if_pos (by rw [List.length_nil, sizeMax]; omega)]
        exact returns_ok ⟨hsize, fun a ha => Flat.write_of_lt (by omega)⟩
      rw [sizeSub_eq (by omega) hfits,
        Block.store_eq (by simp; omega), ok_bind,
        if_neg (show ¬ rest.length < l.tzspecLen - 1 by omega),
        Block.store_eq (by rw [List.length_singleton]; dsimp only; omega), ok_bind,
        Block.load_one (by dsimp only; omega), ok_bind]
      have hkeep : ∀ a < l.leapsIdx,
          Flat.write (Flat.write b.mem l.tzspecAt (rest.take (l.tzspecLen - 1)))
            (l.tzspecAt + (l.tzspecLen - 1)) [0] a = b.mem a := by
        intro a ha
        rw [Flat.write_of_lt (by omega), Flat.write_of_lt (by omega)]
      split_ifs
      · exact returns_ok ⟨hsize, hkeep⟩
      · exact returns_ok ⟨hsize, hkeep⟩
  · rw [readTzspec, if_neg hw]
    exact returns_ok ⟨hsize, fun _ _ => rfl⟩

/-! ### The names -/

section
variable {l : Layout} {b : Block} {tb : Tables}

structure Filled (l : Layout) (tb : Tables) (b : Block) : Prop where
  idxs : l.typeIdxsAt + l.transitions ≤ b.size
  room : l.zoneNames ≤ b.size
  typeIdxs_length : tb.typeIdxs.length = l.transitions
  typeIdxs_lt : ∀ x ∈ tb.typeIdxs, x.toNat < l.types
  types_length : tb.types.length = l.types
  holds : Holds l tb.typeIdxs tb.types b.mem

section
variable (h : Filled l tb b)
include h

lemma typeByte_eq (hi : i < l.types) (hoff : offset < 16) :
    typeByte l b i offset = .ok (b.mem (l.typesIdx + i * 16 + offset)) := by
  have hroom := h.room
  unfold Layout.zoneNames at hroom
  rw [typeByte, if_pos hi, Block.load_one (by omega), ok_bind]
  rfl

lemma typeOffset_returns (hi : i < l.types) : Returns (typeOffset l b i) fun _ => True := by
  have hroom := h.room
  unfold Layout.zoneNames at hroom
  rw [typeOffset, if_pos hi, Block.load_eq (by omega), ok_bind]
  exact returns_ok trivial

lemma typeIdx_eq (hi : i < l.transitions) :
    typeIdx l b i = .ok (tb.typeIdxs.getD i 0).toNat ∧ (tb.typeIdxs.getD i 0).toNat < l.types := by
  constructor
  · rw [typeIdx, Block.load_one (by have := h.idxs; omega), ok_bind, List.headD_cons,
      h.holds.typeIdxs i hi]
  · have hi' : i < tb.typeIdxs.length := by rwa [h.typeIdxs_length]
    rw [List.getD_eq_getElem _ _ hi']
    exact h.typeIdxs_lt _ (List.getElem_mem hi')

lemma Filled.type_mem (hi : i < l.types) : tb.types.getD i (0, 0) ∈ tb.types := by
  have hi' : i < tb.types.length := by rwa [h.types_length]
  rw [List.getD_eq_getElem _ _ hi']
  exact List.getElem_mem hi'

lemma registerNames_eq (hnames : ∀ type ∈ tb.types, type.2.toNat < l.chars)
    (hi : i + more ≤ l.types) : registerNames l b more i = .ok () := by
  induction more generalizing i with
  | zero => rfl
  | succ more ih =>
    rw [registerNames, typeByte_eq h (by omega) (by omega), ok_bind, zoneName,
      h.holds.idx i (by omega), if_pos (hnames _ (h.type_mem (by omega))), ok_bind]
    exact ih (by omega)

lemma registerNames_faults (hi : i + more ≤ l.types)
    (hj : j < more) (hout : l.chars ≤ (tb.types.getD (i + j) (0, 0)).2.toNat) :
    ∃ e, registerNames l b more i = .error e := by
  induction more generalizing i j with
  | zero => omega
  | succ more ih =>
    rw [registerNames, typeByte_eq h (by omega) (by omega), ok_bind, zoneName,
      h.holds.idx i (by omega)]
    split_ifs with hfirst
    · cases j with
      | zero =>
        rw [Nat.add_zero] at hout
        omega
      | succ j =>
        refine ih (j := j) (by omega) (by omega) ?_
        rwa [show i + 1 + j = i + (j + 1) by ring]
    · exact ⟨_, rfl⟩

def Tables.standardAt (tb : Tables) (i : ℕ) : Prop :=
  (tb.types.getD (tb.typeIdxs.getD i 0).toNat (0, 0)).1 = 0

lemma chooseNames_returns
    (hnames : ∀ type ∈ tb.types, type.2.toNat < l.chars) (hi : i ≤ l.transitions) (std dst : Bool) :
    Returns (chooseNames l b i std dst) fun p =>
      p.1 = true ↔ std = true ∨ ∃ j < i, tb.standardAt j := by
  induction i generalizing std dst with
  | zero => exact returns_ok (by simp)
  | succ i ih =>
    obtain ⟨hidx, hlt⟩ := typeIdx_eq h (i := i) (by omega)
    have hname := hnames _ (h.type_mem hlt)
    have hlast : (∃ j < i + 1, tb.standardAt j) ↔ tb.standardAt i ∨ ∃ j < i, tb.standardAt j := by
      rw [Nat.exists_lt_succ_right, or_comm]
    rw [chooseNames, hidx, ok_bind, typeByte_eq h hlt (by omega), ok_bind, h.holds.isdst _ hlt,
      typeByte_eq h hlt (by omega), ok_bind, h.holds.idx _ hlt, zoneName, if_pos hname, ok_bind,
      hlast]
    by_cases hstd : tb.standardAt i
    · have hdst : ¬ (tb.types.getD (tb.typeIdxs.getD i 0).toNat (0, 0)).1 ≠ 0 := not_not.mpr hstd
      rw [if_neg hdst]
      cases std with
      | true =>
        simpa using (ih (by omega) true dst).mono fun p hp => by simp [hp]
      | false =>
        rw [if_neg Bool.false_ne_true, if_neg hdst]
        cases dst with
        | true => exact returns_ok (by simp [hstd])
        | false => exact (ih (by omega) true false).mono fun p hp => by simp [hp, hstd]
    have hdst : (tb.types.getD (tb.typeIdxs.getD i 0).toNat (0, 0)).1 ≠ 0 := hstd
    rw [if_pos hdst]
    cases dst with
    | true =>
      simpa using (ih (by omega) std true).mono fun p hp => by simp [hp, hstd]
    | false =>
      rw [if_neg Bool.false_ne_true, if_pos hdst]
      cases std with
      | true => exact returns_ok (by simp)
      | false => exact (ih (by omega) false true).mono fun p hp => by simp [hp, hstd]

lemma ruleLoop_returns (hi : i ≤ l.transitions) (std dst : Option ℤ) :
    Returns (ruleLoop l b i std dst) fun _ => True := by
  induction i generalizing std dst with
  | zero => exact returns_ok trivial
  | succ i ih =>
    obtain ⟨hidx, hlt⟩ := typeIdx_eq h (i := i) (by omega)
    rw [ruleLoop, hidx, ok_bind, typeByte_eq h hlt (by omega), ok_bind]
    refine (typeOffset_returns h hlt).bind fun offset _ => ?_
    dsimp only
    split_ifs
    all_goals first | exact returns_ok trivial | exact ih (by omega) _ _

lemma ruleOffsets_returns (htypes : 0 < l.types) : Returns (ruleOffsets l b) fun _ => True := by
  unfold ruleOffsets
  split_ifs
  · exact (typeOffset_returns h htypes).bind fun _ _ => returns_ok trivial
  · exact (ruleLoop_returns h le_rfl none none).bind fun _ _ => returns_ok trivial

lemma Filled.keep (hidxs : l.transitions * 9 ≤ l.typesIdx)
    (hsize : b'.size = b.size) (hmem : ∀ a < l.zoneNames, b'.mem a = b.mem a) : Filled l tb b' := by
  refine ⟨hsize ▸ h.idxs, hsize ▸ h.room, h.typeIdxs_length, h.typeIdxs_lt, h.types_length,
    fun i hi => ?_, fun i hi => ?_, fun i hi => ?_⟩
  · rw [hmem _ (by unfold Layout.zoneNames Layout.typeIdxsAt; omega)]
    exact h.holds.typeIdxs i hi
  · rw [hmem _ (by unfold Layout.zoneNames; omega)]
    exact h.holds.isdst i hi
  · rw [hmem _ (by unfold Layout.zoneNames; omega)]
    exact h.holds.idx i hi

lemma Filled.inBounds (hnames : ∀ type ∈ tb.types, type.2.toNat < l.chars)
    (tzspec : Option ℕ) (stdoff dstoff : ℤ) : Zone.InBounds ⟨l, b, tzspec, stdoff, dstoff⟩ := by
  refine ⟨fun i hi => ?_, fun i hi => ?_⟩
  · rw [h.holds.typeIdxs i hi]
    exact (typeIdx_eq h hi).2
  · rw [h.holds.idx i hi]
    exact hnames _ (h.type_mem hi)

lemma Filled.standard_iff : (∃ i < l.transitions, tb.standardAt i) ↔
    ∃ x ∈ tb.typeIdxs, (tb.types.getD x.toNat (0, 0)).1 = 0 := by
  rw [← h.typeIdxs_length]
  constructor
  · rintro ⟨i, hi, hstd⟩
    rw [Tables.standardAt, List.getD_eq_getElem _ _ hi] at hstd
    exact ⟨_, List.getElem_mem hi, hstd⟩
  · rintro ⟨x, hx, hstd⟩
    obtain ⟨i, hi, rfl⟩ := List.mem_iff_getElem.mp hx
    refine ⟨i, hi, ?_⟩
    rwa [Tables.standardAt, List.getD_eq_getElem _ _ hi]

end

lemma finish_returns_iff (hfit : l.Fits rem)
    (hsize : r.block.size = l.blockSize) (hrest : l.width = 8 → r.rest.length = 1 + l.tzspecLen)
    (h : Filled l tb r.block) :
    Returns (finish l r) (fun o => ∀ z ∈ o, z.InBounds) ↔ NamesOk l tb := by
  obtain ⟨⟨tzspec, b⟩, hrun, hsize', hmem⟩ := readTzspec_returns hfit hsize hrest
  have hnames := hfit.names
  have hb : Filled l tb b := h.keep hfit.idxs (hsize'.trans hsize.symm)
    fun a ha => hmem a (by omega)
  rw [finish, hrun, ok_bind]
  dsimp only
  by_cases hidx : ∀ type ∈ tb.types, type.2.toNat < l.chars
  · rw [registerNames_eq hb hidx (by omega), ok_bind]
    obtain ⟨⟨std, dst⟩, hchoose, hstd⟩ := chooseNames_returns hb hidx le_rfl false false
    rw [hb.standard_iff] at hstd
    rw [hchoose, ok_bind]
    by_cases hok : (∃ x ∈ tb.typeIdxs, (tb.types.getD x.toNat (0, 0)).1 = 0) ∨ l.types = 1
    · refine iff_of_true ?_ ⟨hidx, hok⟩
      have htypes : 0 < l.types := by
        rcases hok with ⟨x, hx, -⟩ | hone
        · exact Nat.zero_lt_of_lt (hb.typeIdxs_lt x hx)
        · omega
      have hcheck : checkNames l std = .ok () := by
        unfold checkNames
        split_ifs with hs
        · rfl
        · have hone : l.types = 1 := hok.resolve_left fun hex => hs (hstd.mpr (.inr hex))
          have hchars : 0 < l.chars := Nat.zero_lt_of_lt (hidx _ (hb.type_mem htypes))
          rw [ensure, if_pos (by simpa using hone), ok_bind, zoneName, if_pos hchars]
      rw [hcheck, ok_bind]
      refine (ruleOffsets_returns hb htypes).bind ?_
      rintro ⟨stdoff, dstoff⟩ -
      refine returns_ok ?_
      rintro z ⟨⟩
      exact hb.inBounds hidx _ _ _
    refine iff_of_false ?_ fun hall => hok hall.2
    have hs : std = false := by
      simpa using mt (fun hs => (hstd.mp hs).resolve_left Bool.false_ne_true)
        fun hex => hok (.inl hex)
    have hcheck : ∃ e, checkNames l std = .error e := by
      rw [hs, checkNames, if_neg Bool.false_ne_true, ensure,
        if_neg (by simpa using fun hone => hok (.inr hone))]
      exact ⟨_, rfl⟩
    obtain ⟨e, he⟩ := hcheck
    rw [he]
    rintro ⟨_, hret, -⟩
    cases hret
  refine iff_of_false ?_ fun hall => hidx hall.1
  push Not at hidx
  obtain ⟨type, hmem', hout⟩ := hidx
  obtain ⟨i, hi, rfl⟩ := List.mem_iff_getElem.mp hmem'
  obtain ⟨e, he⟩ := registerNames_faults hb (show 0 + l.types ≤ l.types by omega)
    (hb.types_length ▸ hi) (by rwa [Nat.zero_add, List.getD_eq_getElem _ _ hi])
  rw [he]
  rintro ⟨_, hret, -⟩
  cases hret

end

/-! ### The whole function -/

section
variable {l : Layout} {r : Reader} {tb : Tables}

lemma readFlags_next_iff {P : Prop} (hlow : 10 ≤ offset) (hhigh : offset < 16) (hnone : Q none)
    (hsize : r.block.size = l.blockSize) (hroom : l.zoneNames ≤ l.blockSize)
    (hf : ∀ r', given ≤ r.rest.length → r'.rest = r.rest.drop given →
      r'.block.size = l.blockSize → Keeps l r.block.mem r'.block.mem → (Returns (f r') Q ↔ P)) :
    Returns (unlessLost (readFlags l offset given r) f) Q ↔
      FlagsInside l offset given r.rest ∧ (given ≤ r.rest.length → P) := by
  by_cases hin : FlagsInside l offset given r.rest
  · have hread := readFlags_follows hlow hhigh hsize hroom hin
    rw [takeBytes] at hread
    split_ifs at hread with hshort
    · obtain ⟨_, hrun, ⟨⟩⟩ := hread
      rw [hrun]
      exact iff_of_true (returns_ok hnone) ⟨hin, fun hle => absurd hle (by omega)⟩
    obtain ⟨_, hrun, ⟨hrest, hsize', hkeep⟩⟩ := hread
    rw [hrun]
    change Returns (f _) Q ↔ _
    rw [hf _ (by omega) hrest hsize' hkeep]
    exact ⟨fun hP => ⟨hin, fun _ => hP⟩, fun h => h.2 (by omega)⟩
  obtain ⟨e, he⟩ := readFlags_faults hsize hin
  rw [he]
  refine iff_of_false ?_ fun h => hin h.1
  rintro ⟨_, hret, -⟩
  cases hret

lemma Represents.filled (h : Represents l tb r) (hfit : l.Fits rem) : Filled l tb r.block := by
  have hidxs := hfit.idxs
  have hnames := hfit.names
  have hleaps := hfit.leaps
  have hsize := h.size
  unfold Layout.zoneNames at hnames
  unfold Layout.blockSize at hsize
  refine ⟨?_, ?_, h.typeIdxs_length, h.typeIdxs_lt, h.types_length, h.holds⟩
  · unfold Layout.typeIdxsAt
    omega
  · unfold Layout.zoneNames
    omega

lemma Filled.keeps (h : Filled l tb b) (hidxs : l.transitions * 9 ≤ l.typesIdx)
    (hsize : b'.size = b.size) (hkeep : Keeps l b.mem b'.mem) : Filled l tb b' :=
  ⟨hsize ▸ h.idxs, hsize ▸ h.room, h.typeIdxs_length, h.typeIdxs_lt, h.types_length,
    h.holds.keep (by unfold Layout.typeIdxsAt; omega) hkeep⟩

lemma readZone_returns_iff (hfit : l.Fits r.rest.length) (hsize : r.block.size = l.blockSize) :
    Returns (readZone l r) (fun o => ∀ z ∈ o, z.InBounds) ↔
      ∀ tb, tables l r.rest = some tb → Harmless l tb := by
  have hread := readTables_follows hfit hsize
  unfold readZone
  cases htables : tables l r.rest with
  | none =>
    rw [htables] at hread
    obtain ⟨_, hrun, ⟨⟩⟩ := hread
    rw [hrun]
    exact iff_of_true (returns_ok nofun) nofun
  | some tb =>
    rw [htables] at hread
    obtain ⟨_, hrun, @⟨_, r1, hrep⟩⟩ := hread
    rw [hrun]
    have hfilled := hrep.filled hfit
    have hroom : l.zoneNames ≤ l.blockSize := hrep.size ▸ hfilled.room
    have hlen := tables_length htables
    have hspec := hfit.tzspec
    change Returns (unlessLost (readFlags l 10 l.isstd r1) _) _ ↔ _
    rw [readFlags_next_iff (P := FlagsInside l 11 l.isgmt (tb.rest.drop l.isstd) ∧
      (l.isgmt ≤ (tb.rest.drop l.isstd).length → NamesOk l tb)) (by omega) (by omega) nofun
      hrep.size hroom]
    · rw [hrep.rest, List.length_drop]
      constructor
      · rintro ⟨hstd, hgmt⟩ _ ⟨⟩
        exact ⟨hstd, fun hle => (hgmt hle).1, fun hle => (hgmt (by omega)).2 (by omega)⟩
      · intro h
        have h := h tb rfl
        exact ⟨h.isstd, fun hle => ⟨h.isgmt hle, fun hle' => h.names (by omega)⟩⟩
    intro r2 hle2 hrest2 hsize2 hkeep2
    rw [hrep.rest] at hle2 hrest2
    rw [← hrest2]
    refine readFlags_next_iff (by omega) (by omega) nofun hsize2 hroom ?_
    intro r3 hle3 hrest3 hsize3 hkeep3
    have hfilled3 := hfilled.keeps hfit.idxs (hsize3.trans hrep.size.symm) (hkeep2.trans hkeep3)
    refine finish_returns_iff hfit hsize3 (fun hw => ?_) hfilled3
    rw [hrest3, hrest2, List.length_drop, List.length_drop]
    rw [hw] at hlen
    omega

end

/-- Reading a file does no harm, and leaves indices in range, exactly if the flags are
stored inside of the block and the names are in order. -/
theorem tzfileRead_returns_iff (heap : Heap) (file : List UInt8) (extra : ℕ) :
    Returns (tzfileRead heap file extra) (fun o => ∀ z ∈ o, z.InBounds) ↔
      ∀ l r tb, prepare heap file extra = some (l, r) → tables l r.rest = some tb →
        Harmless l tb := by
  unfold tzfileRead
  cases hprep : prepare heap file extra with
  | none => exact iff_of_true (returns_ok nofun) nofun
  | some p =>
    obtain ⟨l, r⟩ := p
    obtain ⟨hfit, hsize⟩ := prepare_fits hprep
    rw [readZone_returns_iff hfit hsize]
    constructor
    · rintro h _ _ tb ⟨⟩
      exact h tb
    · exact fun h tb => h l r tb rfl

def twoFlags : List UInt8 :=
  tzMagic ++ List.replicate 16 0 ++ [0, 0, 0, 0] ++ [0, 0, 0, 2] ++ [0, 0, 0, 0] ++ [0, 0, 0, 0] ++
    [0, 0, 0, 1] ++ [0, 0, 0, 1] ++ [0, 0, 0, 0, 0, 0] ++ [0] ++ [0, 0]

/-- The second flag is stored behind the block of 24 bytes. -/
theorem tzfileRead_twoFlags :
    tzfileRead ⟨fun _ => true, fun _ => 0⟩ twoFlags 0 = .error (.write 26) := by
  have hrun : (tzfileRead ⟨fun _ => true, fun _ => 0⟩ twoFlags 0).map (fun _ => ()) =
      .error (.write 26) := by decide +kernel
  cases h : tzfileRead ⟨fun _ => true, fun _ => 0⟩ twoFlags 0 with
  | ok z =>
    rw [h] at hrun
    cases hrun
  | error e =>
    rw [h] at hrun
    cases hrun
    rfl

end Eglibc.TzfileRead
