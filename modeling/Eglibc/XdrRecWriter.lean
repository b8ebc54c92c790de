import Eglibc.XdrRecReader

/-!
# Writing records

What the connection has been given, with the finished records in the output buffer, is the
wire form of the records.
-/
namespace Eglibc.XdrRec
open Checked BigEndian Segments

/-- What a client does between two records, up to the end of the next one. It may go on
differently when an inline request is refused. -/
inductive Script
  | endofrecord (sendnow : Bool)
  | putlong (l : ℤ) (next : Script)
  | putint32 (i : ℤ) (next : Script)
  | putbytes (bs : List UInt8) (next : Script)
  | inline (bs : List UInt8) (granted refused : Script)

def Script.Aligned : ℕ → Script → Prop
  | n, endofrecord _ => n % 4 = 0
  | n, putlong _ next => n % 4 = 0 ∧ next.Aligned (n + 4)
  | n, putint32 _ next => n % 4 = 0 ∧ next.Aligned (n + 4)
  | n, putbytes bs next => next.Aligned (n + bs.length)
  | n, inline bs granted refused => granted.Aligned (n + bs.length) ∧ refused.Aligned n

def Script.SendsNow : Script → Prop
  | endofrecord sendnow => sendnow = true
  | putlong _ next => next.SendsNow
  | putint32 _ next => next.SendsNow
  | putbytes _ next => next.SendsNow
  | inline _ granted refused => granted.SendsNow ∧ refused.SendsNow

structure Client where
  script : Script
  aligned : script.Aligned 0

def written (bs : List UInt8) (rest : Run (Option (RecStream × List UInt8))) :
    Run (Option (RecStream × List UInt8)) := do
  match ← rest with
  | none => .ok none
  | some (r, bs') => .ok (some (r, bs ++ bs'))

def writeRecord (r : RecStream) : Script → Run (Option (RecStream × List UInt8))
  | .endofrecord sendnow => do
    let (ok, r) ← xdrrecEndofrecord r sendnow
    if ok then .ok (some (r, [])) else .ok none
  | .putlong l next => do
    let (ok, r) ← xdrrecPutlong r l
    if ok then written (bytes32 l) (writeRecord r next) else .ok none
  | .putint32 i next => do
    let (ok, r) ← xdrrecPutint32 r i
    if ok then written (bytes32 i) (writeRecord r next) else .ok none
  | .putbytes bs next => do
    let (ok, r) ← xdrrecPutbytes r bs
    if ok then written bs (writeRecord r next) else .ok none
  | .inline bs granted refused => do
    let (ok, r) ← xdrrecInlineEncode r bs
    if ok then written bs (writeRecord r granted) else writeRecord r refused

def writeRecords (r : RecStream) : List Client → Run (Option (RecStream × List (List UInt8)))
  | [] => .ok (some (r, []))
  | c :: cs => do
    match ← writeRecord r c.script with
    | none => .ok none
    | some (r, data) =>
      match ← writeRecords r cs with
      | none => .ok none
      | some (r, records) => .ok (some (r, data :: records))

def pending (r : RecStream) : List UInt8 := (r.buffer.drop r.outBase).take (r.fragHeader - r.outBase)

inductive Unfinished : List UInt8 → List UInt8 → Prop
  | nil : Unfinished [] []
  | snoc {data bs d : List UInt8} : Unfinished data bs → d ≠ [] → d.length < 2 ^ 31 →
      Unfinished (data ++ d) (bs ++ fragment false d)

lemma Unfinished.close (h : Unfinished data bs) (hf : Frames d bs') :
    Frames (data ++ d) (bs ++ bs') := by
  induction h generalizing d bs' with
  | nil => exact hf
  | snoc _ hne hlen ih =>
    simpa using ih (.more hne hlen hf)

lemma Unfinished.sent_eq_nil (h : Unfinished [] bs) : bs = [] := by
  generalize hd : ([] : List UInt8) = data at h
  cases h with
  | nil => rfl
  | snoc _ hne _ => exact absurd (List.append_eq_nil_iff.mp hd.symm).2 hne

/-- The writer has finished records with the wire form `done`; of the next one the
fragments `sent` with the data `data` have left the buffer, and `cur` is the data of the
current fragment. -/
structure Writing (r : RecStream) (done data sent cur : List UInt8) : Prop where
  base_le : r.outBase ≤ r.fragHeader
  finger_eq : r.fragHeader + 4 + cur.length = r.outFinger
  finger_le : r.outFinger ≤ r.outBoundry
  boundry_le : r.outBoundry ≤ r.buffer.length
  size_mod : (r.outBoundry - r.outBase) % 4 = 0
  eight_le : r.outBase + 8 ≤ r.outBoundry
  size_lt : r.outBoundry < r.outBase + 2 ^ 31
  sent_eq : r.tcp.sent ++ pending r = done ++ sent
  cur_holds : Holds r.buffer (r.fragHeader + 4) cur
  fragments : Unfinished data sent
  fragSent_eq : r.fragSent = false → data = [] ∧ sent = []
  room : cur = [] → r.outFinger < r.outBoundry
  aligned : (r.outFinger - r.outBase) % 4 = (data.length + cur.length) % 4

section
variable {r : RecStream} {done data sent cur : List UInt8}

section
variable (h : Writing r done data sent cur)
include h

lemma Writing.pending_holds :
    Holds r.buffer r.outBase (pending r) ∧ r.outBase + (pending r).length = r.fragHeader := by
  have h1 := h.base_le
  have h2 := h.finger_eq
  have h3 := h.finger_le
  have h4 := h.boundry_le
  have hlen : (pending r).length = r.fragHeader - r.outBase := by
    simp only [pending, List.length_take, List.length_drop]
    omega
  refine ⟨?_, by omega⟩
  intro j hj
  rw [hlen] at hj
  rw [pending, List.getElem?_take_of_lt hj, List.getElem?_drop]

lemma Writing.store (bs : List UInt8) (hfit : r.outFinger + bs.length ≤ r.outBoundry) :
    Returns (storeRange r.buffer r.outFinger bs) (fun buffer =>
      Writing { r with buffer := buffer, outFinger := r.outFinger + bs.length }
        done data sent (cur ++ bs)) := by
  obtain ⟨h1, h2, h3, h4, h5, h6, h7, h8, h9, h10, h11, h12, h13⟩ := id h
  refine (storeRange_returns (by omega)).mono ?_
  intro buffer hw
  have hpend : pending { r with buffer := buffer, outFinger := r.outFinger + bs.length } = pending r := by
    obtain ⟨hp, hlen⟩ := h.pending_holds
    have hkeep := hp.agree hw.below (by omega)
    have := hkeep.take_drop
    rwa [show (pending r).length = r.fragHeader - r.outBase by omega] at this
  constructor
  · exact h1
  · simp
    omega
  · exact hfit
  · exact h4.trans hw.length_eq.ge
  · exact h5
  · exact h6
  · exact h7
  · rwa [hpend]
  · exact hw.extend h9 h2
  · exact h10
  · exact h11
  · intro hnil
    obtain ⟨rfl, rfl⟩ := List.append_eq_nil_iff.mp hnil
    exact h12 rfl
  · simp
    omega

theorem Writing.patch (eor : Bool) : Returns (storeRange r.buffer r.fragHeader
        (bytes32 (r.outFinger - r.fragHeader - 4 ||| (if eor then lastFragBit else 0) : ℕ)))
      (fun buffer => buffer.length = r.buffer.length ∧
        Holds buffer r.outBase (pending r ++ fragment eor cur) ∧
        r.outBase + (pending r ++ fragment eor cur).length = r.outFinger) := by
  obtain ⟨h1, h2, h3, h4, h5, h6, h7, h8, h9, h10, h11, h12, h13⟩ := id h
  obtain ⟨hp, hlen⟩ := h.pending_holds
  have hcur : r.outFinger - r.fragHeader - 4 = cur.length := by omega
  rw [hcur]
  refine (storeRange_overwrites (by simp; omega)).mono ?_
  intro buffer hw
  refine ⟨hw.length_eq, ?_, ?_⟩
  · rw [fragment, ← List.append_assoc, holds_append]
    refine ⟨hw.toWritten.extend hp hlen, ?_⟩
    rw [List.length_append, ← Nat.add_assoc, hlen, length_bytes32]
    exact hw.keeps h9 (by simp)
  · simp [fragment, length_bytes32]
    omega

lemma Writing.cur_length_lt : cur.length < 2 ^ 31 := by
  have h1 := h.base_le
  have h2 := h.finger_eq
  have h3 := h.finger_le
  have h7 := h.size_lt
  omega

structure Flushed (r : RecStream) (fragSent : Bool) (r' : RecStream) (stream : List UInt8) :
    Prop where
  sent_eq : r'.tcp.sent = stream
  base_eq : r'.outBase = r.outBase
  boundry_eq : r'.outBoundry = r.outBoundry
  header_eq : r'.fragHeader = r.outBase
  finger_eq : r'.outFinger = r.outBase + 4
  fragSent_eq : r'.fragSent = fragSent
  length_eq : r'.buffer.length = r.buffer.length

omit h in
lemma Tcp.writeit_natCast (t : Tcp) (bs : List UInt8) (n : ℕ) :
    t.writeit bs n = ((n : ℤ), { t with sent := t.sent ++ bs }) := by
  rw [Tcp.writeit, if_neg (by omega)]

lemma flushOut_returns (fragSent eor : Bool) :
    Returns (flushOut { r with fragSent := fragSent } eor) (fun out => out.1 = true ∧
      Flushed r fragSent out.2 (done ++ sent ++ fragment eor cur)) := by
  obtain ⟨h1, h2, h3, h4, h5, h6, h7, h8, h9, h10, h11, h12, h13⟩ := id h
  refine (h.patch eor).bind ?_
  rintro buffer ⟨hlen, hh, hfinger⟩
  have hne : pending r ++ fragment eor cur ≠ [] := by simp [fragment]
  have hlen' : r.outFinger - r.outBase = (pending r ++ fragment eor cur).length := by omega
  have hsigned : signed 32 ((r.outFinger - r.outBase : ℕ) : ℤ) = (r.outFinger - r.outBase : ℕ) :=
    signed_eq (w := 31) (by omega) (by omega)
  dsimp only
  rw [hh.loadRange hne hlen', ok_bind, hsigned, Tcp.writeit_natCast, if_neg (by simp)]
  refine returns_ok ⟨rfl, ?_, rfl, rfl, rfl, rfl, rfl, hlen⟩
  rw [← List.append_assoc, h8]

omit h in
lemma Flushed.pending_eq (hf : Flushed r fragSent r' stream) : pending r' = [] := by
  simp [pending, hf.base_eq, hf.header_eq]

omit h in
lemma Flushed.writing (hf : Flushed r fragSent r' stream) (h : Writing r done data sent cur)
    (hs : stream = done' ++ sent') (hu : Unfinished data' sent')
    (hfs : fragSent = false → data' = [] ∧ sent' = [])
    (hmod : data'.length % 4 = 0) : Writing r' done' data' sent' [] := by
  obtain ⟨h1, h2, h3, h4, h5, h6, h7, h8, h9, h10, h11, h12, h13⟩ := h
  have hpend := hf.pending_eq
  obtain ⟨f1, f2, f3, f4, f5, f6, f7⟩ := hf
  constructor
  · omega
  · simp [f4, f5]
  · omega
  · omega
  · rwa [f2, f3]
  · omega
  · omega
  · rw [hpend, List.append_nil, f1, hs]
  · exact holds_nil
  · exact hu
  · rwa [f6]
  · intro _
    omega
  · rw [f2, f5, List.length_nil]
    omega

theorem flushOut_full (hfull : r.outFinger = r.outBoundry) :
    Returns (flushOut { r with fragSent := true } false) (fun out => out.1 = true ∧
      Writing out.2 done (data ++ cur) (sent ++ fragment false cur) [] ∧
        out.2.outFinger < out.2.outBoundry) := by
  have hne : cur ≠ [] := by
    intro hnil
    have := h.room hnil
    omega
  have hmod : (data ++ cur).length % 4 = 0 := by
    have := h.size_mod
    simp [← h.aligned, hfull, this]
  refine (flushOut_returns h true false).mono ?_
  rintro ⟨ok, r'⟩ ⟨hok, hf⟩
  have hw : Writing r' done (data ++ cur) (sent ++ fragment false cur) [] := by
    refine hf.writing h (List.append_assoc _ _ _) (.snoc h.fragments hne h.cur_length_lt) ?_ hmod
    intro hfs
    cases hfs
  exact ⟨hok, hw, hw.room rfl⟩

lemma storeLong_returns (l : ℤ) (hfit : r.outFinger + 4 ≤ r.outBoundry) :
    Returns (storeLong r l) (fun r' => Writing r' done data sent (cur ++ bytes32 l)) := by
  refine (h.store (bytes32 l) hfit).bind ?_
  intro buffer hw
  exact returns_ok hw

end

def InRecord (r : RecStream) (done data : List UInt8) : Prop :=
  ∃ before sent cur, before ++ cur = data ∧ Writing r done before sent cur

section
variable (h : InRecord r done data)
include h

lemma xdrrecPutlong_returns (l : ℤ) (hmod : data.length % 4 = 0) :
    Returns (xdrrecPutlong r l) (fun out => out.1 = true ∧
      InRecord out.2 done (data ++ bytes32 l)) := by
  obtain ⟨before, sent, cur, rfl, h⟩ := h
  unfold xdrrecPutlong
  by_cases hfull : r.outBoundry < r.outFinger + 4
  · have h0 := h.base_le
    have h1 := h.finger_eq
    have h1' := h.finger_le
    have h2 := h.size_mod
    have h3 := h.aligned
    rw [List.length_append] at hmod
    rw [if_pos hfull]
    refine (flushOut_full h (by omega)).bind ?_
    rintro ⟨ok, r'⟩ ⟨hok, hw, -⟩
    dsimp only at hok hw
    subst hok
    have h5 := hw.eight_le
    have h6 := hw.size_mod
    have h7 := hw.aligned
    have h8 := hw.room rfl
    rw [List.length_append, List.length_nil] at h7
    have hfit : r'.outFinger + 4 ≤ r'.outBoundry := by omega
    refine (storeLong_returns hw l hfit).bind ?_
    intro r'' hw'
    exact returns_ok ⟨rfl, before ++ cur, _, _, by simp, hw'⟩
  rw [if_neg hfull]
  refine (storeLong_returns h l (by omega)).bind ?_
  intro r' hw
  exact returns_ok ⟨rfl, before, sent, _, by simp, hw⟩

omit h in
lemma putbytesBody_returns (s : RecStream × List UInt8)
    (h : ∃ data, data ++ s.2 = total ∧ InRecord s.1 done data) :
    Returns (putbytesBody s) (Pass (fun s => ∃ data, data ++ s.2 = total ∧ InRecord s.1 done data)
      (fun s => 2 * s.2.length + if s.1.outFinger = s.1.outBoundry then 1 else 0)
      (fun out => out.1 = true ∧ InRecord out.2 done total) s) := by
  obtain ⟨r, bs⟩ := s
  obtain ⟨data, htotal, before, sent, cur, rfl, h⟩ := h
  dsimp only at htotal h
  unfold putbytesBody
  dsimp only
  by_cases hnil : bs = []
  · rw [if_pos hnil]
    rw [hnil, List.append_nil] at htotal
    exact returns_ok ⟨rfl, before, sent, cur, htotal, h⟩
  have hpos := List.length_pos_of_ne_nil hnil
  have hle := h.finger_le
  rw [if_neg hnil]
  generalize hc : min bs.length (r.outBoundry - r.outFinger) = c
  have htake : (bs.take c).length = c := by
    simp
    omega
  have hstore := h.store (bs.take c) (by omega)
  rw [htake] at hstore
  refine hstore.bind ?_
  intro buffer hw
  have htotal' : before ++ (cur ++ bs.take c) ++ bs.drop c = total := by
    simp [← htotal]
  split_ifs with hflush
  · refine (flushOut_full hw hflush.1).bind ?_
    rintro ⟨ok, r'⟩ ⟨hok, hw', hroom⟩
    dsimp only at hok hw' hroom
    subst hok
    refine returns_ok ⟨⟨_, htotal', before ++ (cur ++ bs.take c), _, [], by simp, hw'⟩, ?_⟩
    dsimp only
    rw [if_neg (by omega), List.length_drop]
    split_ifs <;> omega
  refine returns_ok ⟨⟨_, htotal', before, sent, _, rfl, hw⟩, ?_⟩
  have hdrop : r.outFinger + c = r.outBoundry → (bs.drop c).length = 0 := by
    intro hb
    by_contra hne
    exact hflush ⟨hb, fun hd => hne (by simp [hd])⟩
  rw [List.length_drop] at hdrop
  dsimp only
  rw [List.length_drop]
  split_ifs <;> omega

lemma xdrrecPutbytes_returns (bs : List UInt8) :
    Returns (xdrrecPutbytes r bs) (fun out => out.1 = true ∧ InRecord out.2 done (data ++ bs)) := by
  refine iterate_returns _ putbytesBody_returns ⟨data, rfl, h⟩ ?_
  dsimp only
  split_ifs <;> omega

lemma xdrrecInlineEncode_returns (bs : List UInt8) : Returns (xdrrecInlineEncode r bs) (fun out =>
      InRecord out.2 done (if out.1 then data ++ bs else data)) := by
  obtain ⟨before, sent, cur, rfl, h⟩ := h
  unfold xdrrecInlineEncode
  split_ifs with hfit
  · refine (h.store bs hfit).bind ?_
    intro buffer hw
    exact returns_ok ⟨before, sent, _, by simp, hw⟩
  · exact returns_ok ⟨before, sent, cur, by simp, h⟩

theorem xdrrecEndofrecord_returns (sendnow : Bool) (hmod : data.length % 4 = 0) :
    Returns (xdrrecEndofrecord r sendnow) (fun out => out.1 = true ∧
      ∃ bs, Frames data bs ∧ InRecord out.2 (done ++ bs) [] ∧
        (sendnow = true → pending out.2 = [])) := by
  obtain ⟨before, sent, cur, rfl, h⟩ := h
  have hframes := h.fragments.close (.last h.cur_length_lt)
  unfold xdrrecEndofrecord
  split_ifs with hflush
  · refine (flushOut_returns h false true).mono ?_
    rintro ⟨ok, r'⟩ ⟨hok, hf⟩
    have hw : Writing r' (done ++ (sent ++ fragment true cur)) [] [] [] :=
      hf.writing h (by simp) .nil (fun _ => ⟨rfl, rfl⟩) rfl
    refine ⟨hok, _, hframes, ⟨[], [], [], rfl, hw⟩, fun _ => ?_⟩
    exact hf.pending_eq
  push Not at hflush
  obtain ⟨hnow, hfs, hroom⟩ := hflush
  obtain ⟨rfl, rfl⟩ := h.fragSent_eq (Bool.eq_false_of_not_eq_true hfs)
  obtain ⟨h1, h2, h3, h4, h5, h6, h7, h8, h9, h10, h11, h12, h13⟩ := id h
  refine (h.patch true).bind ?_
  rintro buffer ⟨hlen, hh, hfinger⟩
  rw [List.length_append] at hmod
  have hpend : (buffer.drop r.outBase).take (r.outFinger - r.outBase) =
      pending r ++ fragment true cur := by
    rw [show r.outFinger - r.outBase = (pending r ++ fragment true cur).length by omega]
    exact hh.take_drop
  refine returns_ok ⟨rfl, _, hframes, ⟨[], [], [], rfl, ?_⟩, fun hn => absurd hn hnow⟩
  constructor
  · dsimp only
    omega
  · rfl
  · dsimp only
    omega
  · dsimp only
    omega
  · exact h5
  · exact h6
  · exact h7
  · rw [List.append_nil] at h8 ⊢
    rw [pending, hpend, ← List.append_assoc, h8, List.nil_append]
  · exact holds_nil
  · exact .nil
  · exact fun _ => ⟨rfl, rfl⟩
  · intro _
    omega
  · dsimp only
    rw [List.length_nil]
    omega

lemma writeRecord_returns (ha : script.Aligned data.length) :
    Returns (writeRecord r script) (fun out => ∃ r' written bs, out = some (r', written) ∧
      Frames (data ++ written) bs ∧ InRecord r' (done ++ bs) [] ∧
      (script.SendsNow → pending r' = [])) := by
  induction script generalizing r data with
  | endofrecord sendnow =>
    refine (xdrrecEndofrecord_returns h sendnow ha).bind ?_
    rintro ⟨ok, r'⟩ ⟨hok, bs, hf, hin, hp⟩
    subst hok
    exact returns_ok ⟨r', [], bs, rfl, by simpa using hf, hin, hp⟩
  | putlong l next ih | putint32 l next ih =>
    refine (xdrrecPutlong_returns h l ha.1).bind ?_
    rintro ⟨ok, r'⟩ ⟨hok, hin⟩
    subst hok
    refine (ih hin (by simpa using ha.2)).bind ?_
    rintro out ⟨r'', bs', bs, rfl, hf, hin', hp⟩
    exact returns_ok ⟨r'', _, bs, rfl, by simpa using hf, hin', hp⟩
  | putbytes ds next ih =>
    refine (xdrrecPutbytes_returns h ds).bind ?_
    rintro ⟨ok, r'⟩ ⟨hok, hin⟩
    subst hok
    refine (ih hin (by simpa [Script.Aligned] using ha)).bind ?_
    rintro out ⟨r'', bs', bs, rfl, hf, hin', hp⟩
    exact returns_ok ⟨r'', _, bs, rfl, by simpa using hf, hin', hp⟩
  | inline ds granted refused ihg ihr =>
    refine (xdrrecInlineEncode_returns h ds).bind ?_
    rintro ⟨ok, r'⟩ hin
    cases ok with
    | true =>
      refine (ihg hin (by simpa using ha.1)).bind ?_
      rintro out ⟨r'', bs', bs, rfl, hf, hin', hp⟩
      exact returns_ok ⟨r'', _, bs, rfl, by simpa using hf, hin', fun hs => hp hs.1⟩
    | false =>
      refine (ihr hin (by simpa using ha.2)).mono ?_
      rintro out ⟨r'', bs', bs, rfl, hf, hin', hp⟩
      exact ⟨r'', bs', bs, rfl, hf, hin', fun hs => hp hs.2⟩

end

lemma writeRecords_returns {P : Prop} (cs : List Client) (h : InRecord r done [])
    (hp : P → pending r = []) :
    Returns (writeRecords r cs) (fun out => ∃ r' records wires, out = some (r', records) ∧
      records.length = cs.length ∧ List.Forall₂ Frames records wires ∧
      r'.tcp.sent ++ pending r' = done ++ wires.flatten ∧
      ((cs.getLast?.elim P fun c => c.script.SendsNow) → pending r' = [])) := by
  induction cs generalizing r done P with
  | nil =>
    obtain ⟨before, sent, cur, hnil, hw⟩ := h
    obtain ⟨rfl, rfl⟩ := List.append_eq_nil_iff.mp hnil
    have hsent : sent = [] := hw.fragments.sent_eq_nil
    refine returns_ok ⟨r, [], [], rfl, rfl, .nil, ?_, hp⟩
    simp [hw.sent_eq, hsent]
  | cons c cs ih =>
    refine (writeRecord_returns h c.aligned).bind ?_
    rintro out ⟨r', data, bs, rfl, hf, hin, hp'⟩
    refine (ih hin hp').bind ?_
    rintro out ⟨r'', records, wires, rfl, hlen, hall, hsent, hlast⟩
    refine returns_ok ⟨r'', data :: records, bs :: wires, rfl, by simp [hlen],
      .cons (by simpa using hf) hall, by simpa using hsent, ?_⟩
    intro hs
    apply hlast
    cases hcs : cs.getLast? with
    | none | some c' => simpa [List.getLast?_cons, hcs] using hs

end

/-- Requested buffer sizes for which the size of the one object for both does not wrap. -/
structure Sizes where
  send : ℕ
  recv : ℕ
  sum_lt : fixBufSize send + fixBufSize recv + 4 < 2 ^ 32

/-- Every length of the writing side is an `int`. -/
structure SendSizes extends Sizes where
  send_le : send ≤ 2 ^ 31 - 4

/-- Every length of the reading side is an `int`. -/
structure RecvSizes extends Sizes where
  recv_le : recv ≤ 2 ^ 31 - 4

lemma fixBufSize_bounds (h : s ≤ 2 ^ 31 - 4) :
    fixBufSize s % 4 = 0 ∧ 8 ≤ fixBufSize s ∧ fixBufSize s < 2 ^ 31 := by
  unfold fixBufSize rndup
  split_ifs with hs
  · omega
  · omega

lemma length_buffer_create (sz : Sizes) (align : Fin 4) (tcp : Tcp) :
    (xdrrecCreate sz.send sz.recv align tcp).buffer.length =
      fixBufSize sz.send + fixBufSize sz.recv + 4 := by
  simp only [xdrrecCreate, List.length_replicate]
  exact Nat.mod_eq_of_lt sz.sum_lt

lemma create_inRecord (sz : SendSizes) (align : Fin 4) :
    InRecord (xdrrecCreate sz.send sz.recv align ⟨[], [], []⟩) [] [] := by
  have hlen := length_buffer_create sz.toSizes align ⟨[], [], []⟩
  obtain ⟨h4, h8, hlt⟩ := fixBufSize_bounds sz.send_le
  refine ⟨[], [], [], rfl, ?_⟩
  constructor
  · exact le_rfl
  · rfl
  · simp only [xdrrecCreate]
    omega
  · rw [hlen]
    simp only [xdrrecCreate]
    omega
  · simp only [xdrrecCreate]
    omega
  · simp only [xdrrecCreate]
    omega
  · simp only [xdrrecCreate]
    omega
  · simp [xdrrecCreate, pending]
  · exact holds_nil
  · exact .nil
  · exact fun _ => ⟨rfl, rfl⟩
  · intro _
    simp only [xdrrecCreate]
    omega
  · simp [xdrrecCreate]

lemma create_within (sz : RecvSizes) (align : Fin 4) (stream : List UInt8) (chunks : List ℕ) :
    Within (xdrrecCreate sz.send sz.recv align ⟨[], stream, chunks⟩) [] stream := by
  have hlen := length_buffer_create sz.toSizes align ⟨[], stream, chunks⟩
  obtain ⟨h4, h8, hlt⟩ := fixBufSize_bounds sz.recv_le
  refine ⟨?_, .inl ⟨rfl, rfl, ?_⟩⟩
  · constructor
    · simp [xdrrecCreate]
    · exact le_rfl
    · exact le_rfl
    · rw [hlen]
      simp only [xdrrecCreate]
      omega
    · simp only [xdrrecCreate]
      omega
    · simp only [xdrrecCreate]
      omega
  · simp [unread, buffered, xdrrecCreate]

/-- Records are transparent. What has been written to the connection, with the finished
records that still wait in the output buffer (none when the last one was sent at once),
gives every reader back the records that the clients wrote: each read of what a record
holds gets the next bytes of it, each read of more fails, and a skip leads to the next
record from anywhere in this one. -/
theorem records_delivered (ws : SendSizes) (rs : RecvSizes) (walign ralign : Fin 4) (cs : List Client) :
    Returns (writeRecords (xdrrecCreate ws.send ws.recv walign ⟨[], [], []⟩) cs) (fun out =>
      ∃ r records, out = some (r, records) ∧ records.length = cs.length ∧
        ((cs.getLast?.elim True fun c => c.script.SendsNow) → pending r = []) ∧
        ∀ (chunks : List ℕ) (plans : List (List ReadOp)), plans.length ≤ records.length →
          Returns (readRecords (xdrrecCreate rs.send rs.recv ralign
              ⟨[], r.tcp.sent ++ pending r, chunks⟩) plans)
            (fun got => ∃ answers, got = some answers ∧ Delivers records plans answers)) := by
  have hpend : True → pending (xdrrecCreate ws.send ws.recv walign ⟨[], [], []⟩) = [] := by
    intro _
    simp [pending, xdrrecCreate]
  refine (writeRecords_returns cs (create_inRecord ws walign) hpend).mono ?_
  rintro out ⟨r, records, wires, rfl, hlen, hall, hsent, hlast⟩
  refine ⟨r, records, rfl, hlen, hlast, ?_⟩
  intro chunks plans hplans
  have hwithin : Within (xdrrecCreate rs.send rs.recv ralign
      ⟨[], r.tcp.sent ++ pending r, chunks⟩) [] (wires.flatten ++ []) := by
    simpa [hsent] using create_within rs ralign _ chunks
  exact readRecords_returns hwithin hall plans hplans

/-- With two buffers of 2 GiB the size of the object wraps around to 4 bytes, and the
first word of the first record is written behind it. -/
theorem huge_buffers_overrun :
    ¬Returns (writeRecords (xdrrecCreate (2 ^ 31) (2 ^ 31) 0 ⟨[], [], []⟩)
        [⟨.putlong 0 (.endofrecord true), by simp [Script.Aligned]⟩])
      (fun out => ∃ r records, out = some (r, records)) := by
  rintro ⟨out, hout, -⟩
  cases hout

end Eglibc.XdrRec
