import Eglibc.NsNameUnpack

/-!
# Packing names into a message

Each name that is written into a message reads, through its compression pointers, as the
name it was given up to the case of its letters.
-/
namespace Eglibc.NsName
open Checked Segments

variable {bound : ℕ} {es : List ℕ} {buf : List UInt8}

def fold (ls : List (List UInt8)) : List (List UInt8) := ls.map (List.map mklower)

@[simp] lemma fold_cons (l : List UInt8) (ls : List (List UInt8)) :
    fold (l :: ls) = l.map mklower :: fold ls := rfl

lemma fold_append (ls ls' : List (List UInt8)) : fold (ls ++ ls') = fold ls ++ fold ls' :=
  List.map_append

lemma mklower_ofNat : ∀ n ≤ 63, mklower (UInt8.ofNat n) = UInt8.ofNat n := by decide

lemma map_wireLabel (h : Ordinary l) : (wireLabel l).map mklower = wireLabel (l.map mklower) := by
  simp [wireLabel, mklower_ofNat _ h.2]

theorem map_wire (h : ∀ l ∈ ls, Ordinary l) : (wire ls).map mklower = wire (fold ls) := by
  induction ls with
  | nil => rfl
  | cons l ls ih =>
    have hl := map_wireLabel (h l (by simp))
    have htail := ih fun l' h' => h l' (by simp [h'])
    simp only [wire, wireLabels_cons, fold_cons, List.append_assoc, List.map_append] at htail ⊢
    rw [hl, htail]

section
variable {domain buf : List UInt8} {d l : List UInt8} {ds ls : List (List UInt8)}
  {dn cp lo hi : ℕ}

lemma Reads.load_head (h : Reads buf lo hi cp ls) :
    Returns (load buf cp) (fun c => c = 0 → ls = []) := by
  cases h with
  | root h => exact ⟨_, h.load, fun _ => rfl⟩
  | label hl h _ => exact ⟨_, h.load, fun h0 => absurd h0 (ofNat_ne_zero _ hl.2 hl.1)⟩
  | @pointer _ _ _ _ offset _ _ ho h =>
    refine ⟨_, h.load, fun h0 => absurd h0 (ne_zero_of_flags ?_)⟩
    exact pointer_flags (offset / 256) (by omega)

lemma sameLabel_returns (hd : Holds domain dn d) (hl : Holds buf cp l)
    (hlen : d.length = l.length) : Returns (sameLabel domain buf dn cp l.length)
      (fun same => same = true → d.map mklower = l.map mklower) := by
  induction l generalizing d dn cp with
  | nil =>
    rw [List.length_eq_zero_iff.mp hlen]
    exact returns_ok fun _ => rfl
  | cons b l ih =>
    cases d with
    | nil => cases hlen
    | cons a d =>
      rw [List.length_cons, sameLabel, hd.load, ok_bind, hl.load, ok_bind]
      by_cases hab : mklower a = mklower b
      · rw [if_neg (not_not_intro hab)]
        refine (ih (holds_cons.mp hd).2 (holds_cons.mp hl).2 (by simpa using hlen)).mono ?_
        intro same h hs
        simp [hab, h hs]
      · rw [if_pos hab]
        exact returns_ok (by simp)

lemma holds_wire_cons : Holds domain dn (wire (d :: ds)) ↔
      Holds domain dn (wireLabel d) ∧ Holds domain (dn + (d.length + 1)) (wire ds) := by
  rw [wire, wireLabels_cons, List.append_assoc, holds_append, ← wire, length_wireLabel]

def LabelCompared (dn cp : ℕ) (d l : List UInt8) (ds ls : List (List UInt8)) :
    ℕ × ℕ ⊕ Comparison → Prop
  | .inl s => s = (dn + (d.length + 1), cp + (l.length + 1)) ∧
      d.map mklower = l.map mklower ∧ ds ≠ []
  | .inr .same => fold (d :: ds) = fold (l :: ls)
  | .inr .next => True
  | .inr .illegal => False

lemma compareLabel_returns (hd : Holds domain dn (wire (d :: ds)))
    (hord : ∀ l ∈ d :: ds, Ordinary l) (hl : Holds buf cp (wireLabel l))
    (hr : Reads buf lo hi (cp + (l.length + 1)) ls) :
    Returns (compareLabel domain buf dn cp l.length) (LabelCompared dn cp d l ds ls) := by
  obtain ⟨hd, hds⟩ := holds_wire_cons.mp hd
  have hdl : Ordinary d := hord d (by simp)
  rw [compareLabel, hd.load, ok_bind, toNat_ofNat (by have := hdl.2; omega)]
  by_cases hne : l.length = d.length
  · rw [if_neg (not_not_intro hne)]
    refine (sameLabel_returns (holds_wireLabel.mp hd).2 (holds_wireLabel.mp hl).2 hne.symm).bind ?_
    intro same hsame
    cases same with
    | false => exact returns_ok trivial
    | true =>
      rw [if_pos rfl, show dn + 1 + l.length = dn + (d.length + 1) by omega,
        show cp + 1 + l.length = cp + (l.length + 1) by omega]
      cases ds with
      | nil =>
        have hz : load domain (dn + (d.length + 1)) = .ok 0 := hds.load
        rw [hz, ok_bind, if_pos rfl]
        refine hr.load_head.bind ?_
        intro c hc
        split_ifs with h0
        · exact returns_ok (by simp [LabelCompared, hsame rfl, hc h0])
        · exact returns_ok trivial
      | cons d' ds =>
        have hd' : Ordinary d' := hord d' (by simp)
        rw [(holds_wire_cons.mp hds).1.load, ok_bind, if_neg (ofNat_ne_zero _ hd'.2 hd'.1)]
        exact returns_ok ⟨rfl, hsame rfl, by simp⟩
  · rw [if_pos hne]
    exact returns_ok trivial

/-- The state of a comparison of the rest `ds` of the domain with that of a name in the
message. A pointer leads to a label, so two passes deal with one label of `ds`. -/
def CompareInv (domain buf : List UInt8) (G : Prop) (m : ℕ) (s : ℕ × ℕ) : Prop :=
  ∃ ds ls lo hi, ds ≠ [] ∧ (∀ l ∈ ds, Ordinary l) ∧ Holds domain s.1 (wire ds) ∧
    Reads buf lo hi s.2 ls ∧ (fold ds = fold ls → G) ∧
    (m = 2 * ds.length + 1 ∨ m = 2 * ds.length ∧ ∃ l, Ordinary l ∧ Holds buf s.2 (wireLabel l))

def Compares (G : Prop) : Comparison → Prop
  | .same => G
  | .next => True
  | .illegal => False

lemma compareBody_returns {G : Prop} (m : ℕ) (s : ℕ × ℕ) (h : CompareInv domain buf G m s) :
    Returns (compareBody domain buf s) (Closer (CompareInv domain buf G) (Compares G) m) := by
  obtain ⟨ds, ls, lo, hi, hne, hord, hd, hr, hG, hm⟩ := h
  unfold compareBody
  cases hr with
  | root hz =>
    rw [hz.load, ok_bind, if_pos rfl]
    exact returns_ok trivial
  | @label _ _ _ l ls hl hw hr =>
    rw [hw.load, ok_bind, if_neg (ofNat_ne_zero _ hl.2 hl.1), if_pos (ofNat_flags _ hl.2),
      labellen_of_holds hw hl, ok_bind]
    cases ds with
    | nil => exact absurd rfl hne
    | cons d ds =>
      refine (compareLabel_returns hd hord hw hr).mono ?_
      intro out hout
      rcases out with s' | c
      · obtain ⟨rfl, hmap, hds⟩ := hout
        refine ⟨2 * ds.length + 1, ?_, ds, ls, lo, hi, hds, ?_, ?_, hr, ?_, .inl rfl⟩
        · rcases hm with rfl | ⟨rfl, _⟩ <;> simp only [List.length_cons] <;> omega
        · exact fun l' h' => hord l' (by simp [h'])
        · exact (holds_wire_cons.mp hd).2
        · intro hf
          exact hG (by rw [fold_cons, fold_cons, hmap, hf])
      cases c with
      | same => exact hG hout
      | next => exact trivial
      | illegal => exact hout
  | @pointer _ lo' hi' _ offset l ls ho hw hlo hhi hl ht hr =>
    have hflags := pointer_flags (offset / 256) (by omega)
    have hlow : load buf (s.2 + 1) = .ok (UInt8.ofNat (offset % 256)) := (holds_cons.mp hw).2.load
    rw [hw.load, ok_bind, if_neg (ne_zero_of_flags hflags), hflags, if_neg (by decide),
      if_pos rfl, hlow, ok_bind, pointerOffset_bytes ho]
    refine returns_ok ⟨2 * ds.length, ?_, ds, l :: ls, lo', hi', hne, hord, hd, .label hl ht hr, hG,
      .inr ⟨rfl, l, hl, ht⟩⟩
    rcases hm with rfl | ⟨-, l', hl', hw'⟩
    · omega
    · have hb := Option.some.inj ((holds_cons.mp hw).1.symm.trans (holds_wireLabel.mp hw').1)
      rw [hb, ofNat_flags _ hl'.2] at hflags
      cases hflags

structure Matches (buf : List UInt8) (bound : ℕ) (ds : List (List UInt8)) (offset : ℕ) : Prop where
  lt : offset < 0x4000
  reads : ∃ lo hi l ls, lo ≤ offset ∧ hi ≤ bound ∧ Ordinary l ∧ Holds buf offset (wireLabel l) ∧
    Reads buf lo hi (offset + (l.length + 1)) ls ∧ fold ds = fold (l :: ls)

def Searches (buf : List UInt8) (bound : ℕ) (ds : List (List UInt8)) : Search → Prop
  | .found offset => Matches buf bound ds offset
  | .next => True
  | .illegal => False

lemma length_le_wireLabels (ls : List (List UInt8)) : ls.length ≤ (wireLabels ls).length := by
  induction ls with
  | nil => exact le_rfl
  | cons l ls ih =>
    simp
    omega

lemma Holds.labels_lt (hd : Holds domain dn (wire ds)) : ds.length < domain.length := by
  have h := hd.le_length (by simp [wire])
  have := length_le_wireLabels ds
  rw [length_wire] at h
  omega

lemma suffixBody_returns (hne : ds ≠ []) (hord : ∀ l ∈ ds, Ordinary l)
    (hd : Holds domain dn (wire ds)) (sp : ℕ)
    (h : ∃ ls lo, lo ≤ sp ∧ hi ≤ bound ∧ Reads buf lo hi sp ls) :
    Returns (suffixBody domain buf dn sp)
      (Pass (fun sp => ∃ ls lo, lo ≤ sp ∧ hi ≤ bound ∧ Reads buf lo hi sp ls) (fun sp => hi - sp)
        (Searches buf bound ds) sp) := by
  obtain ⟨ls, lo, hlo, hhi, hr⟩ := h
  have hlt := hr.pos_lt
  unfold suffixBody
  cases hr with
  | root hz =>
    rw [hz.load, ok_bind, if_neg (fun h => h.1 rfl)]
    exact returns_ok trivial
  | @pointer _ _ _ _ offset _ _ ho hw =>
    have hflags := pointer_flags (offset / 256) (by omega)
    rw [hw.load, ok_bind, hflags, if_neg (fun h => absurd h.2.1 (by decide))]
    exact returns_ok trivial
  | @label _ _ _ l ls hl hw hr =>
    rw [hw.load, ok_bind]
    by_cases hsp : sp < 0x4000
    · rw [if_pos ⟨ofNat_ne_zero _ hl.2 hl.1, ofNat_flags _ hl.2, hsp⟩]
      have hcmp : Returns (iterate (compareBody domain buf) (2 * domain.length + 2) (dn, sp))
          (Compares (fold ds = fold (l :: ls))) := by
        refine iterate_closer compareBody_returns (m := 2 * ds.length + 1)
          ⟨ds, l :: ls, lo, hi, hne, hord, hd, .label hl hw hr, id, .inl rfl⟩ ?_
        have := Holds.labels_lt hd
        omega
      refine hcmp.bind ?_
      intro c hc
      cases c with
      | same => exact returns_ok ⟨hsp, lo, hi, l, ls, hlo, hhi, hl, hw, hr, hc⟩
      | next =>
        rw [toNat_ofNat (by have := hl.2; omega), Nat.add_assoc]
        exact returns_ok ⟨⟨ls, lo, by omega, hhi, hr⟩, by dsimp only; omega⟩
      | illegal => exact hc.elim
    · rw [if_neg (fun h => hsp h.2.2)]
      exact returns_ok trivial

def Saved (buf : List UInt8) (bound : ℕ) (es : List ℕ) : Prop :=
  ∀ e ∈ es, ∃ hi ls, hi ≤ bound ∧ Reads buf e hi e ls

lemma Saved.agree (h : Saved buf bound es) (ha : AgreeBelow bound buf buf') : Saved buf' bound es := by
  intro e he
  obtain ⟨hi, ls, hhi, hr⟩ := h e he
  exact ⟨hi, ls, hhi, hr.agree le_rfl (ha.mono hhi)⟩

lemma dnFind_returns (hne : ds ≠ []) (hord : ∀ l ∈ ds, Ordinary l) (hd : Holds domain dn (wire ds))
    (htab : Holds dnptrs cpp (es.map some)) (hes : Saved buf bound es) :
    Returns (dnFind domain buf dn dnptrs cpp es.length)
      (fun r => ∀ offset, r = some offset → Matches buf bound ds offset) := by
  induction es generalizing cpp with
  | nil => exact returns_ok (by simp)
  | cons e es ih =>
    obtain ⟨hi, ls, hhi, hr⟩ := hes e (by simp)
    have hle := hr.le_length
    rw [List.length_cons, dnFind, htab.load, ok_bind]
    refine (iterate_returns (fun sp => hi - sp) (suffixBody_returns hne hord hd)
      ⟨ls, e, le_rfl, hhi, hr⟩ (by omega)).bind ?_
    intro r hr
    cases r with
    | found offset =>
      refine returns_ok ?_
      rintro offset' ⟨⟩
      exact hr
    | next => exact ih (holds_cons.mp htab).2 fun e' h' => hes e' (by simp [h'])
    | illegal => exact hr.elim

end

section
variable {dnptrs : List (Option ℕ)} {es : List ℕ}

def Table (dnptrs : List (Option ℕ)) (es : List ℕ) : Prop :=
  Holds dnptrs 0 (some 0 :: (es.map some ++ [none]))

section
variable (h : Table dnptrs es)
include h

lemma Table.entries : Holds dnptrs 1 (es.map some) :=
  (holds_append.mp (holds_cons.mp h).2).1

lemma Table.null : dnptrs[es.length + 1]? = some none := by
  have := (holds_append.mp (holds_cons.mp h).2).2
  rw [List.length_map, holds_cons] at this
  rw [Nat.add_comm]
  simpa using this.1

lemma Table.lt_length : es.length + 1 < dnptrs.length :=
  (List.getElem?_eq_some_iff.mp h.null).1

lemma listEnd_returns :
    Returns (listEnd dnptrs) (fun lpp => lpp = es.length + 1) := by
  refine iterate_returns (I := fun cpp => 1 ≤ cpp ∧ cpp ≤ es.length + 1)
    (fun cpp => es.length + 1 - cpp) ?_ ⟨le_rfl, by omega⟩ (by have := h.lt_length; omega)
  rintro cpp ⟨h1, hle⟩
  rcases Nat.eq_or_lt_of_le hle with rfl | hlt
  · refine ⟨.inr (es.length + 1), ?_, rfl⟩
    simp [load, h.null]
  have hcpp : dnptrs[cpp]? = (es.map some)[cpp - 1]? := by
    rw [← h.entries (cpp - 1) (by simp; omega)]
    congr 1
    omega
  have hin : cpp - 1 < es.length := by omega
  refine ⟨.inl (cpp + 1), ?_, ⟨by omega, by omega⟩, by dsimp only; omega⟩
  simp [load, hcpp, List.getElem?_eq_getElem hin]

omit h in
lemma Table.truncate (h : Table dnptrs (es ++ es')) : Returns (store dnptrs (es.length + 1) none)
      (fun dnptrs' => dnptrs'.length = dnptrs.length ∧ Table dnptrs' es) := by
  have hlt := h.lt_length
  rw [List.length_append] at hlt
  refine (store_returns (by omega)).mono ?_
  intro dnptrs' hw
  refine ⟨hw.length_eq, ?_⟩
  have hkeep : Holds dnptrs 0 (some 0 :: es.map some) := by
    rw [Table, List.map_append, List.append_assoc, ← List.cons_append, holds_append] at h
    exact h.1
  exact hw.extend hkeep (by simp)

lemma Table.push (h1 : Written dnptrs (es.length + 1) [some e] dnptrs')
    (h2 : Written dnptrs' (es.length + 1 + 1) [none] dnptrs'') : Table dnptrs'' (es ++ [e]) := by
  have hkeep : Holds dnptrs 0 (some 0 :: es.map some) := by
    rw [Table, ← List.cons_append, holds_append] at h
    exact h.1
  have := h2.extend (h1.extend hkeep (by simp)) (by simp)
  simpa [Table] using this

end

end

structure DomainName where
  labels : List (List UInt8)
  ordinary : ∀ l ∈ labels, Ordinary l
  length_le : (wire labels).length ≤ maxCdName

section
variable {src : List UInt8}

lemma labellen_root (h : Holds src pos [0]) : labellen src pos = .ok (some 0) := by
  rw [labellen, h.load]
  rfl

lemma legal_returns (name : DomainName) :
    Returns (legal (wire name.labels)) (fun ok => ok = true) := by
  have hlen := name.length_le
  have h0 : Holds (wire name.labels) 0 (wire name.labels) := fun j _ => by simp
  refine iterate_returns (I := fun s => s.1 = s.2 ∧ ∃ rest, (∀ l ∈ rest, Ordinary l) ∧
      s.2 + (wire rest).length ≤ maxCdName ∧ Holds (wire name.labels) s.1 (wire rest))
    (fun s => maxCdName - s.2) ?_ ⟨rfl, name.labels, name.ordinary, by simpa using hlen, h0⟩
    (by omega)
  rintro s ⟨hs, rest, hord, hle, hw⟩
  unfold legalBody
  cases rest with
  | nil =>
    rw [hw.load, ok_bind, if_neg (by decide), labellen_root hw, ok_bind]
    dsimp only
    rw [length_wire, wireLabels_nil, List.length_nil] at hle
    rw [if_neg (by omega), if_pos rfl]
    exact returns_ok rfl
  | cons l rest =>
    have hl := hord l (by simp)
    obtain ⟨hw, hrest⟩ := holds_wire_cons.mp hw
    rw [hw.load, ok_bind, ofNat_flags _ hl.2, if_neg (by decide), labellen_of_holds hw hl, ok_bind]
    dsimp only
    rw [length_wire, wireLabels_cons, List.length_append, length_wireLabel] at hle
    rw [if_neg (by omega), if_neg (ofNat_ne_zero _ hl.2 hl.1)]
    refine returns_ok ⟨⟨by omega, rest, fun l' h' => hord l' (by simp [h']), ?_, hrest⟩, ?_⟩
    · rw [length_wire]
      omega
    · dsimp only
      omega

end

lemma Reads.raise (h : Reads buf lo hi pos ls) (hlo : lo ≤ lo') : Reads buf lo' hi pos ls := by
  induction h with
  | root h => exact .root h
  | label hl h _ ih => exact .label hl h (ih hlo)
  | pointer ho h hlo' hhi hl ht hr => exact .pointer ho h hlo' (by omega) hl ht hr

section
variable {name : DomainName} {buf : List UInt8} {dst eob size : ℕ} {es : List ℕ}
  {last : Option ℕ}

structure PackState (name : DomainName) (buf : List UInt8) (dst size : ℕ) (es : List ℕ)
    (read rest : List (List UInt8)) (extra : List ℕ) (p : Packing) : Prop where
  labels_eq : read ++ rest = name.labels
  src : Holds (wire name.labels) p.srcp (wire rest)
  holds : Holds p.buf dst (wireLabels read)
  dstp_eq : p.dstp = dst + (wireLabels read).length
  below : AgreeBelow dst buf p.buf
  length_eq : p.buf.length = buf.length
  table : Table p.dnptrs (es ++ extra)
  table_length : p.dnptrs.length = size
  cpp_eq : p.cpp = (es ++ extra).length + 1
  extra_eq : ∀ e ∈ extra, ∃ pre post, read = pre ++ post ∧ e = dst + (wireLabels pre).length

/-- What a call leaves behind: nothing in front of `dst` has changed, and either the
table is as before or `dst` is the start of the name. -/
structure Packs (name : DomainName) (buf : List UInt8) (dst size : ℕ) (es : List ℕ)
    (out : Packed) : Prop where
  below : AgreeBelow dst buf out.buf
  length_eq : out.buf.length = buf.length
  table_length : out.dnptrs.length = size
  failed : out.ret = none → Table out.dnptrs es
  packed : ∀ n, out.ret = some n → ∃ extra ls, Table out.dnptrs (es ++ extra) ∧
    Reads out.buf dst (dst + n) dst ls ∧ fold ls = fold name.labels ∧
    ∀ e ∈ extra, ∃ ls', Reads out.buf e (dst + n) e ls'

/-- The call `ns_name_pack` makes once it has found the end of the table. -/
abbrev callOf (name : DomainName) (dst eob : ℕ) (es : List ℕ) (last : Option ℕ) : PackCall :=
  ⟨wire name.labels, dst, eob, some (es.length + 1), last⟩

variable {read rest : List (List UInt8)} {extra : List ℕ} {p : Packing}

section
variable (h : PackState name buf dst size es read rest extra p)
include h

lemma PackState.ordinary : (∀ l ∈ read, Ordinary l) ∧ ∀ l ∈ rest, Ordinary l := by
  have hord := name.ordinary
  rw [← h.labels_eq] at hord
  exact ⟨fun l hl => hord l (by simp [hl]), fun l hl => hord l (by simp [hl])⟩

theorem PackState.packs (hb : AgreeBelow p.dstp p.buf buf')
    (hlen : buf'.length = p.buf.length) (hr : Reads buf' dst (dst + n) p.dstp tail)
    (hf : fold tail = fold rest) : Packs name buf dst size es ⟨some n, buf', p.dnptrs⟩ := by
  have hdst : dst ≤ p.dstp := by have := h.dstp_eq; omega
  have hread : Holds buf' dst (wireLabels read) := h.holds.agree hb (by rw [h.dstp_eq])
  rw [h.dstp_eq] at hr
  refine ⟨h.below.trans (hb.mono hdst), hlen.trans h.length_eq, h.table_length, ?_, ?_⟩
  · intro hn
    cases hn
  rintro n' ⟨⟩
  refine ⟨extra, read ++ tail, h.table, hr.prepend h.ordinary.1 hread, ?_, ?_⟩
  · rw [← h.labels_eq, fold_append, fold_append, hf]
  intro e he
  obtain ⟨pre, post, rfl, rfl⟩ := h.extra_eq e he
  rw [wireLabels_append, holds_append] at hread
  rw [wireLabels_append, List.length_append, ← Nat.add_assoc] at hr
  exact ⟨post ++ tail,
    (hr.prepend (fun l hl => h.ordinary.1 l (by simp [hl])) hread.2).raise (by omega)⟩

lemma cleanup_returns :
    Returns ((callOf name dst eob es last).cleanup p) (Packs name buf dst size es) := by
  refine h.table.truncate.bind ?_
  rintro dnptrs ⟨hlen, ht⟩
  refine returns_ok ⟨h.below, h.length_eq, hlen.trans h.table_length, fun _ => ht, ?_⟩
  intro n hn
  cases hn

lemma find_returns (hes : Saved buf dst es) (hn : n = 0 ↔ rest = []) :
    Returns ((callOf name dst eob es last).find n p)
      (fun r => ∀ offset, r = some offset → Matches p.buf dst rest offset) := by
  unfold PackCall.find callOf
  split_ifs with h0
  · exact returns_ok (by simp)
  have hentries := h.table.entries
  rw [List.map_append, holds_append] at hentries
  exact dnFind_returns (fun hr => h0 (hn.mpr hr)) h.ordinary.2 h.src hentries.1 (hes.agree h.below)

lemma save_returns (hlast : ∀ l, last = some l → l ≤ size) :
    Returns ((callOf name dst eob es last).save n p)
      (fun p' => ∃ extra', PackState name buf dst size es read rest extra' p') := by
  unfold PackCall.save callOf
  cases last with
  | none => exact returns_ok ⟨extra, h⟩
  | some l =>
    have hl := hlast l rfl
    have hsize := h.table_length
    dsimp only
    split_ifs with hc
    · refine (store_returns (by omega)).bind ?_
      intro dnptrs h1
      refine (store_returns (by have := h1.length_eq; omega)).bind ?_
      intro dnptrs' h2
      rw [h.cpp_eq] at h1 h2
      have htable := h.table.push h1 h2
      rw [List.append_assoc] at htable
      refine returns_ok ⟨extra ++ [p.dstp], h.labels_eq, h.src, h.holds, h.dstp_eq, h.below,
        h.length_eq, htable, ?_, ?_, ?_⟩
      · rw [h2.length_eq, h1.length_eq, hsize]
      · rw [h.cpp_eq]
        simp
        omega
      · intro e he
        rcases List.mem_append.mp he with he | he
        · exact h.extra_eq e he
        · rw [List.mem_singleton.mp he]
          exact ⟨read, [], by simp, h.dstp_eq⟩
    · exact returns_ok ⟨extra, h⟩

lemma writePointer_returns (heob : eob ≤ buf.length) (hm : Matches p.buf dst rest offset) :
    Returns ((callOf name dst eob es last).writePointer offset p)
      (Packs name buf dst size es) := by
  unfold PackCall.writePointer
  by_cases hroom : eob ≤ p.dstp + 1
  · rw [if_pos hroom]
    exact cleanup_returns h
  rw [if_neg hroom]
  have hlen := h.length_eq
  have hdst := h.dstp_eq
  refine (store_returns (by omega)).bind ?_
  intro buf1 h1
  refine (store_returns (by have := h1.length_eq; omega)).bind ?_
  intro buf2 h2
  have hbelow : AgreeBelow p.dstp p.buf buf2 := h1.below.trans (h2.below.mono (by omega))
  have hptr : Holds buf2 p.dstp (pointerBytes offset) := h2.extend h1.holds rfl
  obtain ⟨hlt, lo, hi, l, ls, hlo, hhi, hl, hw, hr, hf⟩ := hm
  have hpos := hr.pos_lt
  have hbelow' : AgreeBelow hi p.buf buf2 := hbelow.mono (by omega)
  have hreads : Reads buf2 dst (p.dstp + 2) p.dstp (l :: ls) :=
    .pointer hlt hptr hlo hhi hl (hw.agree hbelow' (by simp; omega))
      (hr.agree (by omega) hbelow')
  have hn : dst + (p.dstp + 2 - dst) = p.dstp + 2 := by omega
  refine returns_ok (h.packs hbelow (h2.length_eq.trans h1.length_eq) ?_ hf.symm)
  rwa [hn]

end

lemma copyLabel_root (h : PackState name buf dst size es read [] extra p)
    (heob : eob ≤ buf.length) (Inv : ℕ → Packing → Prop) (m : ℕ) :
    Returns ((callOf name dst eob es last).copyLabel 0 p)
      (Closer Inv (Packs name buf dst size es) m) := by
  have hsrc : Holds (wire name.labels) p.srcp [0] := h.src
  have hlen := h.length_eq
  have hdst := h.dstp_eq
  rw [PackCall.copyLabel, if_neg (by decide)]
  rw [labellen_root hsrc, ok_bind]
  dsimp only
  by_cases hroom : eob ≤ p.dstp + 1 + 0
  · rw [if_pos hroom]
    refine (cleanup_returns h).bind ?_
    intro out hout
    exact returns_ok hout
  rw [if_neg hroom, hsrc.loadRange (n := 0 + 1) (by simp) rfl, ok_bind]
  refine (storeRange_returns (by simp; omega)).bind ?_
  intro buf1 h1
  rw [PackCall.finish, if_pos rfl, if_neg (by dsimp only; omega), ok_bind]
  refine returns_ok (h.packs h1.below h1.length_eq ?_ rfl)
  rw [show dst + (p.dstp + (0 + 1) - dst) = p.dstp + 1 by omega]
  exact .root h1.holds

lemma copyLabel_cons
    (h : PackState name buf dst size es read (l :: rest) extra p) (heob : eob ≤ buf.length) :
    Returns ((callOf name dst eob es last).copyLabel (UInt8.ofNat l.length) p)
      (Closer (fun m p => ∃ read rest extra, m = rest.length ∧
          PackState name buf dst size es read rest extra p)
        (Packs name buf dst size es) (rest.length + 1)) := by
  have hl := h.ordinary.2 l (by simp)
  have hlen := h.length_eq
  have hdst := h.dstp_eq
  obtain ⟨hw, hrest⟩ := holds_wire_cons.mp h.src
  rw [PackCall.copyLabel, ofNat_flags _ hl.2, if_neg (by decide)]
  rw [labellen_of_holds hw hl, ok_bind]
  dsimp only
  by_cases hroom : eob ≤ p.dstp + 1 + l.length
  · rw [if_pos hroom]
    refine (cleanup_returns h).bind ?_
    intro out hout
    exact returns_ok hout
  rw [if_neg hroom, hw.loadRange (n := l.length + 1) (by simp [wireLabel]) rfl, ok_bind]
  refine (storeRange_returns (by simp; omega)).bind ?_
  intro buf1 h1
  rw [if_neg (by have := hl.1; omega)]
  refine returns_ok ⟨rest.length, by omega, read ++ [l], rest, extra, rfl, ?_⟩
  constructor
  · rw [← h.labels_eq]
    simp
  · exact hrest
  · have := h1.extend h.holds hdst.symm
    simpa [wireLabels_append] using this
  · simp [wireLabels_append, hdst]
    omega
  · exact h.below.trans (h1.below.mono (by omega))
  · exact h1.length_eq.trans hlen
  · exact h.table
  · exact h.table_length
  · exact h.cpp_eq
  · intro e he
    obtain ⟨pre, post, rfl, hpre⟩ := h.extra_eq e he
    exact ⟨pre, post ++ [l], by simp, hpre⟩

lemma body_returns (heob : eob ≤ buf.length) (hes : Saved buf dst es)
    (hlast : ∀ l, last = some l → l ≤ size) (m : ℕ) (p : Packing)
    (h : ∃ read rest extra, m = rest.length ∧ PackState name buf dst size es read rest extra p) :
    Returns ((callOf name dst eob es last).body p)
      (Closer (fun m p => ∃ read rest extra, m = rest.length ∧
          PackState name buf dst size es read rest extra p)
        (Packs name buf dst size es) m) := by
  obtain ⟨read, rest, extra, rfl, h⟩ := h
  have hload : ∃ n, load (wire name.labels) p.srcp = .ok n ∧ (n = 0 ↔ rest = []) ∧
      ∀ l ls, rest = l :: ls → n = UInt8.ofNat l.length := by
    cases rest with
    | nil => exact ⟨0, h.src.load, by simp, by simp⟩
    | cons l rest =>
      have hl := h.ordinary.2 l (by simp)
      refine ⟨_, (holds_wire_cons.mp h.src).1.load, by simp [ofNat_ne_zero _ hl.2 hl.1], ?_⟩
      rintro l' ls ⟨⟩
      rfl
  obtain ⟨n, hn, h0, hcons⟩ := hload
  rw [PackCall.body, show (callOf name dst eob es last).src = wire name.labels from rfl, hn, ok_bind]
  refine (find_returns h hes h0).bind ?_
  intro r hr
  cases r with
  | some offset =>
    refine (writePointer_returns h heob (hr offset rfl)).bind ?_
    intro out hout
    exact returns_ok hout
  | none =>
    refine (save_returns h hlast).bind ?_
    rintro p' ⟨extra', h'⟩
    cases rest with
    | nil =>
      rw [h0.mpr rfl]
      exact copyLabel_root h' heob _ _
    | cons l rest =>
      rw [hcons l rest rfl]
      exact copyLabel_cons h' heob

lemma nsNamePack_returns (ht : Table dnptrs es)
    (hes : Saved buf dst es) (hroom : dst + dstsiz ≤ buf.length)
    (hlast : ∀ l, last = some l → l ≤ dnptrs.length) :
    Returns (nsNamePack (wire name.labels) buf dst dstsiz dnptrs last)
      (Packs name buf dst dnptrs.length es) := by
  have hend : Returns (searchEnd dnptrs) (fun lpp => lpp = some (es.length + 1)) := by
    cases dnptrs with
    | nil => exact absurd ht.lt_length (by simp)
    | cons msg dnptrs =>
      have hmsg : msg = some 0 := by simpa using (holds_cons.mp ht).1
      subst hmsg
      refine (listEnd_returns ht).bind ?_
      rintro lpp rfl
      exact returns_ok rfl
  refine hend.bind ?_
  rintro lpp rfl
  refine (legal_returns name).bind ?_
  rintro ok rfl
  refine iterate_closer (body_returns hroom hes hlast) (m := name.labels.length)
    ⟨[], name.labels, [], rfl, ?_⟩ ?_
  · constructor
    · rfl
    · exact fun j _ => by simp
    · exact holds_nil
    · rfl
    · exact AgreeBelow.rfl
    · rfl
    · simpa using ht
    · rfl
    · simp
    · simp
  · have := length_le_wireLabels name.labels
    have hle := name.length_le
    rw [length_wire] at hle
    omega

end

/-- One way to go on with a message: other bytes, or a name for which the caller
offers `room` bytes. -/
inductive Append
  | bytes (bs : List UInt8)
  | name (name : DomainName) (room : ℕ)

structure Entry where
  start : ℕ
  returned : ℕ
  name : DomainName

structure Message where
  buf : List UInt8
  eom : ℕ
  dnptrs : List (Option ℕ)
  names : List Entry

structure Compression where
  slots : List (Option ℕ)
  lastdnptr : Option ℕ
  last_le : ∀ l, lastdnptr = some l → l ≤ slots.length + 2

def Compression.dnptrs (t : Compression) : List (Option ℕ) := some 0 :: none :: t.slots

namespace Message

def append (last : Option ℕ) (m : Message) : Append → Run Message
  | .bytes bs =>
    if m.eom + bs.length ≤ m.buf.length then do
      let buf ← storeRange m.buf m.eom bs
      .ok { m with buf := buf, eom := m.eom + bs.length }
    else .ok m
  | .name name room => do
    let out ← nsNamePack (wire name.labels) m.buf m.eom (min room (m.buf.length - m.eom))
      m.dnptrs last
    match out.ret with
    | none => .ok { m with buf := out.buf, dnptrs := out.dnptrs }
    | some n => .ok ⟨out.buf, m.eom + n, out.dnptrs, m.names ++ [⟨m.eom, n, name⟩]⟩

def build (t : Compression) (buf : List UInt8) (appends : List Append) : Run Message :=
  appends.foldlM (append t.lastdnptr) ⟨buf, 0, t.dnptrs, []⟩

structure Good (size : ℕ) (m : Message) : Prop where
  eom_le : m.eom ≤ m.buf.length
  table_length : m.dnptrs.length = size
  table : ∃ es, Table m.dnptrs es ∧ Saved m.buf m.eom es
  names : ∀ e ∈ m.names, e.start + e.returned ≤ m.eom ∧
    ∃ ls, Reads m.buf e.start (e.start + e.returned) e.start ls ∧ fold ls = fold e.name.labels

variable {size : ℕ} {last : Option ℕ} {m : Message}

lemma Good.names_agree (h : Good size m) (ha : AgreeBelow m.eom m.buf buf) :
    ∀ e ∈ m.names, e.start + e.returned ≤ m.eom ∧
      ∃ ls, Reads buf e.start (e.start + e.returned) e.start ls ∧
        fold ls = fold e.name.labels := by
  intro e he
  obtain ⟨hle, ls, hr, hf⟩ := h.names e he
  exact ⟨hle, ls, hr.agree le_rfl (ha.mono hle), hf⟩

lemma saved_mono (h : Saved buf bound es) (hb : bound ≤ bound') : Saved buf bound' es := by
  intro e he
  obtain ⟨hi, ls, hhi, hr⟩ := h e he
  exact ⟨hi, ls, by omega, hr⟩

lemma append_bytes_returns (h : Good size m) (bs : List UInt8) :
    Returns (append last m (.bytes bs)) (Good size) := by
  unfold append
  dsimp only
  split_ifs with hfit
  · refine (storeRange_returns hfit).bind ?_
    intro buf hw
    obtain ⟨es, ht, hs⟩ := h.table
    refine returns_ok ⟨?_, h.table_length, ⟨es, ht, ?_⟩, ?_⟩
    · exact hfit.trans hw.length_eq.ge
    · exact saved_mono (hs.agree hw.below) (Nat.le_add_right _ _)
    · intro e he
      obtain ⟨hle, hr⟩ := h.names_agree hw.below e he
      exact ⟨hle.trans (Nat.le_add_right _ _), hr⟩
  · exact returns_ok h

lemma append_name_returns (h : Good size m) (hlast : ∀ l, last = some l → l ≤ size)
    (name : DomainName) (room : ℕ) : Returns (append last m (.name name room)) (Good size) := by
  obtain ⟨es, ht, hs⟩ := h.table
  have hle := h.eom_le
  have hroom : m.eom + min room (m.buf.length - m.eom) ≤ m.buf.length := by omega
  refine (nsNamePack_returns ht hs hroom (by rwa [h.table_length])).bind ?_
  intro out hout
  cases hret : out.ret with
  | none =>
    refine returns_ok ⟨hle.trans hout.length_eq.ge, hout.table_length.trans h.table_length, ?_,
      h.names_agree hout.below⟩
    exact ⟨es, hout.failed hret, hs.agree hout.below⟩
  | some n =>
    obtain ⟨extra, ls, htable, hr, hf, hextra⟩ := hout.packed n hret
    refine returns_ok ⟨hr.le_length, hout.table_length.trans h.table_length, ?_, ?_⟩
    · refine ⟨es ++ extra, htable, ?_⟩
      intro e he
      rcases List.mem_append.mp he with he | he
      · exact saved_mono (hs.agree hout.below) (Nat.le_add_right _ _) e he
      · obtain ⟨ls', hr'⟩ := hextra e he
        exact ⟨_, ls', le_rfl, hr'⟩
    intro e he
    rcases List.mem_append.mp he with he | he
    · obtain ⟨hle', hr'⟩ := h.names_agree hout.below e he
      exact ⟨hle'.trans (Nat.le_add_right _ _), hr'⟩
    · rw [List.mem_singleton.mp he]
      exact ⟨le_rfl, ls, hr, hf⟩

lemma foldlM_append_returns (hlast : ∀ l, last = some l → l ≤ size) (appends : List Append)
    (h : Good size m) : Returns (appends.foldlM (append last) m) (Good size) := by
  induction appends generalizing m with
  | nil => exact returns_ok h
  | cons a appends ih =>
    cases a with
    | bytes bs => exact (append_bytes_returns h bs).bind fun m' h' => ih h'
    | name name room => exact (append_name_returns h hlast name room).bind fun m' h' => ih h'

lemma build_good (t : Compression) (buf : List UInt8) (appends : List Append) :
    Returns (build t buf appends) (Good (t.slots.length + 2)) := by
  refine foldlM_append_returns t.last_le appends ⟨by simp, by simp [Compression.dnptrs], ?_, by simp⟩
  refine ⟨[], ?_, by simp [Saved]⟩
  simp [Table, Compression.dnptrs, holds_cons]

/-- Every name packed into a message is unpacked from the finished message, up to the
case of its letters, at the cost of the octets `ns_name_pack` returned for it. -/
theorem pack_unpack (t : Compression) (buf : List UInt8) (appends : List Append) :
    Returns (build t buf appends) (fun m =>
      ∀ e ∈ m.names, ∀ dst : List UInt8, (wire e.name.labels).length ≤ dst.length →
        Returns (nsNameUnpack (m.buf.take m.eom) e.start dst) (fun out =>
          ∃ dst', out = some (e.returned, dst') ∧
            (dst'.take (wire e.name.labels).length).map mklower =
              (wire e.name.labels).map mklower)) := by
  refine (build_good t buf appends).mono ?_
  intro m h e he dst hdst
  obtain ⟨hle, ls, hr, hf⟩ := h.names e he
  have hmsg := hr.agree le_rfl (agreeBelow_take.mono hle)
  have hwire : (wire ls).map mklower = (wire e.name.labels).map mklower := by
    rw [map_wire hr.ordinary, map_wire e.name.ordinary, hf]
  have hlen : (wire ls).length = (wire e.name.labels).length := by
    simpa using congrArg List.length hwire
  refine (nsNameUnpack_returns hmsg (by omega) (hlen ▸ e.name.length_le)).mono ?_
  rintro out ⟨dst', rfl, hd⟩
  refine ⟨dst', by simp, ?_⟩
  rw [← hlen, ← hwire]
  simpa using congrArg (List.map mklower) hd.take_drop

end Message

end Eglibc.NsName
