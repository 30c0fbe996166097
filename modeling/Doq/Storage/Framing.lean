/-
  Doq.Storage.Framing — how the items of a snapshot are laid out in its bytes
  (`WriteSnapshotItem` and `ReadSnapshotItem` in `pkg/storage/snapshot.go`), and the loop of
  `FSM.Restore` that reads them (`pkg/raft/fsm.go`).

  An item is its length in four bytes, lowest first, and its protobuf encoding, which is a
  parameter: any encoding that can be decoded again. A sink takes the bytes or fails; a reader
  hands them out in pieces of its own choice.

  Proved: what was written is read back, whatever the pieces, and then the end is found; of
  bytes that were cut off, the items that are whole are read, and the end is told from a cut
  inside an item, also when the cut falls between a length and its data.
-/

import Doq.Lib.Reader
import Mathlib.Algebra.Ring.Nat

namespace Doq.Storage

open Lib

variable {α σ : Type}

structure Codec (α : Type) where
  marshal : α → Except String (List UInt8)
  unmarshal : List UInt8 → Except String α
  lossless : ∀ x data, marshal x = .ok data → unmarshal data = .ok x

/-- Where a snapshot is written to. The errors of the next writes are given beforehand. -/
structure Sink where
  bytes : List UInt8
  errors : List (Option String)

def Sink.write (sink : Sink) (data : List UInt8) : Except String Sink :=
  match sink.errors with
  | some e :: _ => .error e
  | none :: errors => .ok ⟨sink.bytes ++ data, errors⟩
  | [] => .ok ⟨sink.bytes ++ data, []⟩

/-- `binary.LittleEndian.PutUint32` into a buffer of four bytes. -/
def putUint32 (n : UInt32) : List UInt8 := [n.toUInt8, (n >>> 8).toUInt8, (n >>> 16).toUInt8, (n >>> 24).toUInt8]

/-- `binary.LittleEndian.Uint32` of a buffer of four bytes. -/
def uint32 (buf : List UInt8) : UInt32 :=
  (buf.getD 0 0).toUInt32 ||| (buf.getD 1 0).toUInt32 <<< 8 ||| (buf.getD 2 0).toUInt32 <<< 16 ||| (buf.getD 3 0).toUInt32 <<< 24

def writeSnapshotItem (codec : Codec α) (sink : Sink) (item : α) : Except String Sink :=
  match codec.marshal item with
  | .error e => .error ("failed to marshal snapshot item: " ++ e)
  | .ok data =>
    match sink.write (putUint32 (UInt32.ofNat data.length)) with
    | .error e => .error ("failed to write length prefix: " ++ e)
    | .ok sink =>
      match sink.write data with
      | .error e => .error ("failed to write snapshot data: " ++ e)
      | .ok sink => .ok sink

/-- Consecutive calls of `WriteSnapshotItem`. -/
def writeSnapshotItems (codec : Codec α) (sink : Sink) (items : List α) : Except String Sink :=
  items.foldlM (writeSnapshotItem codec) sink

inductive SnapshotError where
  | eof
  | failed (text : String)
  deriving DecidableEq, Repr

def errorText : ReadError → String
  | .eof => "EOF"
  | .unexpectedEOF => "unexpected EOF"

/-- The part of `ReadSnapshotItem` after the length. -/
def readSnapshotData (codec : Codec α) (r : Reader σ) (s : σ) (dataLength : UInt32) : Except SnapshotError α × σ :=
  match r.readFull s dataLength.toNat with
  | (_, some e, s) => (.error (.failed ("failed to read snapshot data: " ++ errorText e)), s)
  | (data, none, s) =>
    match codec.unmarshal data with
    | .error e => (.error (.failed ("failed to unmarshal snapshot item: " ++ e)), s)
    | .ok item => (.ok item, s)

/-- Only the end before the first byte of a length is the end of the snapshot. -/
def readSnapshotItem (codec : Codec α) (r : Reader σ) (s : σ) : Except SnapshotError α × σ :=
  match r.readFull s 4 with
  | (_, some .eof, s) => (.error .eof, s)
  | (_, some e, s) => (.error (.failed ("failed to read length prefix: " ++ errorText e)), s)
  | (lengthBuf, none, s) =>
    if lengthBuf.length ≠ 4 then (.error (.failed "incomplete length prefix read"), s)
    else readSnapshotData codec r s (uint32 lengthBuf)

/-! ## The four bytes of a length -/

theorem length_putUint32 (n : UInt32) : (putUint32 n).length = 4 := rfl

theorem uint32_putUint32 (n : UInt32) : uint32 (putUint32 n) = n := by
  apply UInt32.toBitVec_inj.mp
  apply BitVec.eq_of_getLsbD_eq
  intro i hi
  simp only [uint32, putUint32, List.getD_cons_zero, List.getD_cons_succ, UInt32.toBitVec_or, UInt32.toBitVec_shiftLeft,
    UInt8.toBitVec_toUInt32, UInt32.toBitVec_toUInt8, UInt32.toBitVec_shiftRight, BitVec.getLsbD_or]
  simp only [BitVec.getLsbD_setWidth, UInt32.toBitVec_ofNat, BitVec.ofNat_eq_ofNat, BitVec.reduceMod, BitVec.ushiftRight_eq',
    BitVec.toNat_ofNat, Nat.reducePow, Nat.reduceMod, BitVec.shiftLeft_eq', BitVec.getLsbD_shiftLeft, BitVec.getLsbD_ushiftRight]
  -- bit `i` is in one of the four bytes
  grind

/-! ## Writing -/

/-- The bytes of one item. -/
def frame (data : List UInt8) : List UInt8 := putUint32 (UInt32.ofNat data.length) ++ data

theorem Sink.write_ok {sink sink' : Sink} {data : List UInt8} (h : sink.write data = .ok sink') :
    sink'.bytes = sink.bytes ++ data := by
  unfold Sink.write at h
  split at h <;> cases h <;> rfl

theorem writeSnapshotItem_ok {codec : Codec α} {sink sink' : Sink} {item : α}
    (h : writeSnapshotItem codec sink item = .ok sink') :
    ∃ data, codec.marshal item = .ok data ∧ sink'.bytes = sink.bytes ++ frame data := by
  unfold writeSnapshotItem at h
  cases hm : codec.marshal item with
  | error e => rw [hm] at h; cases h
  | ok data =>
    rw [hm] at h
    simp only at h
    cases hp : sink.write (putUint32 (UInt32.ofNat data.length)) with
    | error e => rw [hp] at h; cases h
    | ok sink₁ =>
      rw [hp] at h
      simp only at h
      cases hd : sink₁.write data with
      | error e => rw [hd] at h; cases h
      | ok sink₂ =>
        rw [hd] at h
        cases h
        exact ⟨data, rfl, by rw [Sink.write_ok hd, Sink.write_ok hp, List.append_assoc]; rfl⟩

/-- The bytes of items that can be encoded. -/
def framed (codec : Codec α) (items : List α) : List UInt8 :=
  items.flatMap fun item =>
    match codec.marshal item with
    | .ok data => frame data
    | .error _ => []

theorem framed_cons {codec : Codec α} {item : α} {data : List UInt8} (hm : codec.marshal item = .ok data) (items : List α) :
    framed codec (item :: items) = frame data ++ framed codec items := by
  rw [framed, List.flatMap_cons, hm]
  rfl

theorem framed_take {codec : Codec α} (items : List α) {j k : Nat} (h : j ≤ k) :
    framed codec (items.take j) <+: framed codec (items.take k) := by
  refine ⟨framed codec ((items.take k).drop j), ?_⟩
  have htake : (items.take k).take j = items.take j := by rw [List.take_take, Nat.min_eq_left h]
  unfold framed
  rw [← List.flatMap_append, ← htake, List.take_append_drop]

theorem writeSnapshotItems_ok {codec : Codec α} {items : List α} {sink sink' : Sink}
    (h : writeSnapshotItems codec sink items = .ok sink') :
    (∀ item ∈ items, ∃ data, codec.marshal item = .ok data) ∧ sink'.bytes = sink.bytes ++ framed codec items := by
  induction items generalizing sink with
  | nil =>
    cases h
    exact ⟨fun _ hi => absurd hi List.not_mem_nil, (List.append_nil _).symm⟩
  | cons item items ih =>
    unfold writeSnapshotItems at h
    rw [List.foldlM_cons] at h
    cases hw : writeSnapshotItem codec sink item with
    | error e => rw [hw] at h; cases h
    | ok sink₁ =>
      rw [hw] at h
      obtain ⟨data, hm, hb⟩ := writeSnapshotItem_ok hw
      obtain ⟨hms, hbs⟩ := ih h
      exact ⟨List.forall_mem_cons.mpr ⟨⟨data, hm⟩, hms⟩, by rw [hbs, hb, framed_cons hm, List.append_assoc]⟩

theorem writeSnapshotItems_take {codec : Codec α} {items : List α} {sink sink' : Sink}
    (h : writeSnapshotItems codec sink items = .ok sink')
    (j : Nat) : ∃ sinkⱼ, writeSnapshotItems codec sink (items.take j) = .ok sinkⱼ := by
  unfold writeSnapshotItems at h ⊢
  rw [← List.take_append_drop j items, List.foldlM_append] at h
  cases hw : (items.take j).foldlM (writeSnapshotItem codec) sink with
  | error e => rw [hw] at h; cases h
  | ok sinkⱼ => exact ⟨sinkⱼ, rfl⟩

/-! ## Reading one item -/

variable {codec : Codec α} {r : Reader σ} {s : σ}

theorem readSnapshotItem_end (h : r.left s = []) : (readSnapshotItem codec r s).1 = .error .eof := by
  have hf := (r.readFull_filled s 4).ended h (by decide)
  unfold readSnapshotItem
  generalize r.readFull s 4 = answer at hf ⊢
  obtain ⟨buf, err, s'⟩ := answer
  cases hf
  rfl

/-- With the bytes of a length there, the item is decided by those after them. -/
theorem readSnapshotItem_prefix {n : UInt32} {rest : List UInt8} (h : r.left s = putUint32 n ++ rest) :
    ∃ s₁, r.left s₁ = rest ∧ readSnapshotItem codec r s = readSnapshotData codec r s₁ n := by
  have hf := r.readFull_filled s 4
  unfold readSnapshotItem
  generalize r.readFull s 4 = answer at hf ⊢
  obtain ⟨buf, err, s₁⟩ := answer
  obtain ⟨hbuf, herr, hleft⟩ := hf.full (by rw [h, List.length_append, length_putUint32]; omega)
  rw [h, List.take_left' (length_putUint32 _)] at hbuf
  rw [h, List.drop_left' (length_putUint32 _)] at hleft
  obtain rfl : buf = putUint32 n := hbuf
  obtain rfl : err = none := herr
  refine ⟨s₁, hleft, ?_⟩
  simp only [length_putUint32, ne_eq, not_true_eq_false, if_false, uint32_putUint32]

theorem readSnapshotData_whole {item : α} {data rest : List UInt8} (hm : codec.marshal item = .ok data)
    (hlen : data.length < 2 ^ 32)
    (h : r.left s = data ++ rest) :
    ∃ s', readSnapshotData codec r s (UInt32.ofNat data.length) = (.ok item, s') ∧ r.left s' = rest := by
  have hf := r.readFull_filled s data.length
  unfold readSnapshotData
  rw [UInt32.toNat_ofNat_of_lt' hlen]
  generalize r.readFull s data.length = answer at hf ⊢
  obtain ⟨buf, err, s'⟩ := answer
  obtain ⟨hbuf, herr, hleft⟩ := hf.full (by rw [h, List.length_append]; omega)
  rw [h, List.take_left] at hbuf
  rw [h, List.drop_left] at hleft
  obtain rfl : buf = data := hbuf
  obtain rfl : err = none := herr
  simp only [codec.lossless item buf hm]
  exact ⟨s', rfl, hleft⟩

/-- `io.ReadFull` says `EOF` when no byte of the data is there: here that is a failure too. -/
theorem readSnapshotData_cut {n : UInt32} (h : (r.left s).length < n.toNat) :
    ∃ text, (readSnapshotData codec r s n).1 = .error (.failed text) := by
  have hf := r.readFull_filled s n.toNat
  unfold readSnapshotData
  generalize r.readFull s n.toNat = answer at hf ⊢
  obtain ⟨buf, err, s'⟩ := answer
  by_cases hnil : r.left s = []
  · cases hf.ended hnil (by omega)
    exact ⟨_, rfl⟩
  · cases hf.short hnil h
    exact ⟨_, rfl⟩

/-- A whole item, whatever follows. -/
theorem readSnapshotItem_frame {item : α} {data rest : List UInt8} (hm : codec.marshal item = .ok data)
    (hlen : data.length < 2 ^ 32)
    (h : r.left s = frame data ++ rest) : ∃ s', readSnapshotItem codec r s = (.ok item, s') ∧ r.left s' = rest := by
  rw [frame, List.append_assoc] at h
  obtain ⟨s₁, hleft, hread⟩ := readSnapshotItem_prefix h
  rw [hread]
  exact readSnapshotData_whole hm hlen hleft

/-- An item that was cut: inside its length, right after it, or inside its data. -/
theorem readSnapshotItem_cut (codec : Codec α) {data cut : List UInt8} (hlen : data.length < 2 ^ 32)
    (hne : r.left s ≠ []) (hcut : cut ≠ [])
    (h : r.left s ++ cut = frame data) : ∃ text, (readSnapshotItem codec r s).1 = .error (.failed text) := by
  by_cases hshort : (r.left s).length < 4
  · have hf := (r.readFull_filled s 4).short hne hshort
    unfold readSnapshotItem
    generalize r.readFull s 4 = answer at hf ⊢
    obtain ⟨buf, err, s'⟩ := answer
    cases hf
    exact ⟨_, rfl⟩
  · obtain ⟨part, hpart, hdata⟩ : ∃ part, r.left s = putUint32 (UInt32.ofNat data.length) ++ part ∧ data = part ++ cut := by
      rcases List.append_eq_append_iff.mp h with ⟨part, hp, hc⟩ | h
      · -- the length ends where the cut begins
        have hlen4 := congrArg List.length hp
        rw [length_putUint32, List.length_append] at hlen4
        obtain rfl : part = [] := List.length_eq_zero_iff.mp (by omega)
        exact ⟨[], by rw [hp, List.append_nil, List.append_nil], hc.symm⟩
      · exact h
    obtain ⟨s₁, hleft, hread⟩ := readSnapshotItem_prefix hpart
    rw [hread]
    refine readSnapshotData_cut ?_
    have hpos := List.length_pos_iff.mpr hcut
    rw [UInt32.toNat_ofNat_of_lt' hlen, hleft, hdata, List.length_append]
    omega

theorem readSnapshotData_left {item : α} {s' : σ} {n : UInt32} (h : readSnapshotData codec r s n = (.ok item, s')) :
    (r.left s').length ≤ (r.left s).length := by
  have hf := r.readFull_filled s n.toNat
  unfold readSnapshotData at h
  generalize r.readFull s n.toNat = answer at hf h
  obtain ⟨buf, err, s₁⟩ := answer
  cases err with
  | some e => cases h
  | none =>
    have hleft := (hf.full (hf.length_le r rfl)).2.2
    simp only at h
    cases hu : codec.unmarshal buf with
    | error e => rw [hu] at h; cases h
    | ok item' =>
      rw [hu] at h
      cases h
      rw [hleft, List.length_drop]
      omega

/-- An item that was read took at least the bytes of its length. -/
theorem readSnapshotItem_left {item : α} {s' : σ} (h : readSnapshotItem codec r s = (.ok item, s')) :
    (r.left s').length < (r.left s).length := by
  have hf := r.readFull_filled s 4
  unfold readSnapshotItem at h
  generalize r.readFull s 4 = answer at hf h
  obtain ⟨buf, err, s₁⟩ := answer
  match err with
  | some .eof => cases h
  | some .unexpectedEOF => cases h
  | none =>
    have hle : 4 ≤ (r.left s).length := hf.length_le r rfl
    have hleft : r.left s₁ = (r.left s).drop 4 := (hf.full hle).2.2
    simp only at h
    split at h
    · cases h
    · have hdata := readSnapshotData_left h
      rw [hleft, List.length_drop] at hdata
      omega

/-! ## Reading all items -/

/-- The loop of `Restore`: the items read, and what ended the loop. -/
def readSnapshotItems (codec : Codec α) (r : Reader σ) (s : σ) : List α × SnapshotError :=
  match _h : readSnapshotItem codec r s with
  | (.error e, _) => ([], e)
  | (.ok item, s') =>
    let rest := readSnapshotItems codec r s'
    (item :: rest.1, rest.2)
termination_by (r.left s).length
decreasing_by exact readSnapshotItem_left _h

theorem readSnapshotItems_error {e : SnapshotError} (h : (readSnapshotItem codec r s).1 = .error e) :
    readSnapshotItems codec r s = ([], e) := by
  rw [readSnapshotItems]
  split
  · rename_i e' _ he
    rw [he] at h
    cases h
    rfl
  · rename_i item _ he
    rw [he] at h
    cases h

theorem readSnapshotItems_ok {item : α} {s' : σ} (h : readSnapshotItem codec r s = (.ok item, s')) :
    readSnapshotItems codec r s = (item :: (readSnapshotItems codec r s').1, (readSnapshotItems codec r s').2) := by
  rw [readSnapshotItems]
  split
  · rename_i he
    rw [he] at h
    cases h
  · rename_i he
    rw [he] at h
    cases h
    rfl

/-- What is read of the bytes of some items, up to a cut: the items before it. -/
theorem readSnapshotItems_cut {items : List α} {cut : List UInt8}
    (hok : ∀ item ∈ items, ∃ data, codec.marshal item = .ok data ∧ data.length < 2 ^ 32)
    (h : r.left s ++ cut = framed codec items) :
    ∃ k ≤ items.length, (∀ j ≤ items.length, framed codec (items.take j) <+: r.left s ↔ j ≤ k) ∧
      (readSnapshotItems codec r s).1 = items.take k ∧
      ((readSnapshotItems codec r s).2 = .eof ↔ r.left s = framed codec (items.take k)) := by
  induction items generalizing s with
  | nil =>
    have hleft : r.left s = [] := (List.append_eq_nil_iff.mp h).1
    rw [readSnapshotItems_error (readSnapshotItem_end hleft)]
    refine ⟨0, Nat.le_refl 0, fun j hj => iff_of_true ?_ hj, rfl, iff_of_true rfl hleft⟩
    rw [List.take_nil]
    exact List.nil_prefix
  | cons item items ih =>
    obtain ⟨⟨data, hm, hlen⟩, hrest⟩ := List.forall_mem_cons.mp hok
    rw [framed_cons hm] at h
    -- the cut falls inside this item, or after it
    obtain ⟨t, hne, ht⟩ | ⟨rest, hleft, hcut⟩ :
        (∃ t, t ≠ [] ∧ r.left s ++ t = frame data) ∨ ∃ rest, r.left s = frame data ++ rest ∧
          framed codec items = rest ++ cut := by
      rcases List.append_eq_append_iff.mp h with ⟨t, ht, hc⟩ | hr
      · by_cases hnil : t = []
        · subst hnil
          exact Or.inr ⟨[], by rw [ht, List.append_nil, List.append_nil], hc.symm⟩
        · exact Or.inl ⟨t, hnil, ht.symm⟩
      · exact Or.inr hr
    · have hshort : (r.left s).length < (frame data).length := by
        have hpos := List.length_pos_iff.mpr hne
        rw [← ht, List.length_append]; omega
      have hj : ∀ j ≤ (item :: items).length, framed codec ((item :: items).take j) <+: r.left s ↔ j ≤ 0 := by
        intro j _
        cases j with
        | zero => exact iff_of_true List.nil_prefix (Nat.le_refl 0)
        | succ j =>
          rw [List.take_succ_cons, framed_cons hm]
          refine iff_of_false (fun hp => ?_) (Nat.not_succ_le_zero j)
          have hle := hp.length_le
          rw [List.length_append] at hle
          omega
      by_cases hnil : r.left s = []
      · rw [readSnapshotItems_error (readSnapshotItem_end hnil)]
        exact ⟨0, Nat.zero_le _, hj, rfl, iff_of_true rfl hnil⟩
      · obtain ⟨text, hfail⟩ := readSnapshotItem_cut codec hlen hnil hne ht
        rw [readSnapshotItems_error hfail]
        exact ⟨0, Nat.zero_le _, hj, rfl, iff_of_false nofun hnil⟩
    · obtain ⟨s', hread, hs'⟩ := readSnapshotItem_frame hm hlen hleft
      rw [← hs'] at hcut
      obtain ⟨k, hk, hj, hitems, hend⟩ := ih hrest hcut.symm
      rw [readSnapshotItems_ok hread, hleft, ← hs']
      refine ⟨k + 1, Nat.succ_le_succ hk, fun j hle => ?_, ?_, ?_⟩
      · cases j with
        | zero => exact iff_of_true List.nil_prefix (Nat.zero_le _)
        | succ j =>
          rw [List.take_succ_cons, framed_cons hm, List.prefix_append_right_inj, hj j (Nat.le_of_succ_le_succ hle)]
          omega
      · rw [hitems, List.take_succ_cons]
      · rw [hend, List.take_succ_cons, framed_cons hm, List.append_cancel_left_eq]

/-- The bytes of consecutive `WriteSnapshotItem` calls, read with `ReadSnapshotItem`: the whole
    of them gives the items and the end, and a proper part from their beginning gives the items
    whose calls wrote no byte beyond it, and the end only if it stops after such a call. -/
theorem snapshot_read_back {items : List α} {sink sink' : Sink} (hnew : sink.bytes = [])
    (hw : writeSnapshotItems codec sink items = .ok sink')
    (hlen : ∀ item ∈ items, ∀ data, codec.marshal item = .ok data → data.length < 2 ^ 32) (r : Reader σ) (s : σ) :
    (r.left s = sink'.bytes → readSnapshotItems codec r s = (items, .eof)) ∧
    (r.left s <+: sink'.bytes → r.left s ≠ sink'.bytes → ∃ k < items.length,
      (∀ j, ∃ sinkⱼ, writeSnapshotItems codec sink (items.take j) = .ok sinkⱼ ∧ (sinkⱼ.bytes <+: r.left s ↔ j ≤ k)) ∧
      (readSnapshotItems codec r s).1 = items.take k ∧
      ((readSnapshotItems codec r s).2 = .eof ↔
        ∃ j sinkⱼ, writeSnapshotItems codec sink (items.take j) = .ok sinkⱼ ∧ r.left s = sinkⱼ.bytes)) := by
  have bytes : ∀ {xs : List α} {sink₁ : Sink}, writeSnapshotItems codec sink xs = .ok sink₁ → sink₁.bytes = framed codec xs := by
    intro xs sink₁ h
    rw [(writeSnapshotItems_ok h).2, hnew, List.nil_append]
  have hok : ∀ item ∈ items, ∃ data, codec.marshal item = .ok data ∧ data.length < 2 ^ 32 := by
    intro item hi
    obtain ⟨data, hm⟩ := (writeSnapshotItems_ok hw).1 item hi
    exact ⟨data, hm, hlen item hi data hm⟩
  rw [bytes hw]
  constructor
  · intro hleft
    obtain ⟨k, hk, hj, hitems, hend⟩ := readSnapshotItems_cut hok ((List.append_nil _).trans hleft)
    have hfull : framed codec (items.take items.length) = r.left s := by rw [List.take_length, hleft]
    have hall : items.length ≤ k := (hj items.length (Nat.le_refl _)).mp (hfull ▸ List.prefix_rfl)
    rw [List.take_of_length_le hall] at hitems hend
    exact Prod.ext hitems (hend.mpr hleft)
  · rintro ⟨cut, hcut⟩ hproper
    obtain ⟨k, hk, hj, hitems, hend⟩ := readSnapshotItems_cut hok hcut
    have hlt : k < items.length := by
      refine Nat.lt_of_le_of_ne hk fun heq => hproper ?_
      have hwhole := (hj items.length (Nat.le_refl _)).mpr (Nat.le_of_eq heq.symm)
      rw [List.take_length] at hwhole
      exact List.IsPrefix.eq_of_length_le ⟨cut, hcut⟩ hwhole.length_le
    refine ⟨k, hlt, fun j => ?_, hitems, hend.trans ⟨fun hleft => ?_, ?_⟩⟩
    · obtain ⟨sinkⱼ, hwⱼ⟩ := writeSnapshotItems_take hw j
      refine ⟨sinkⱼ, hwⱼ, ?_⟩
      rw [bytes hwⱼ]
      by_cases hle : j ≤ items.length
      · exact hj j hle
      · rw [List.take_of_length_le (by omega), ← List.take_length (l := items), hj items.length (Nat.le_refl _)]
        omega
    · obtain ⟨sinkₖ, hwₖ⟩ := writeSnapshotItems_take hw k
      exact ⟨k, sinkₖ, hwₖ, by rw [bytes hwₖ, hleft]⟩
    · -- the items before the place where the bytes stop are the whole ones
      rintro ⟨j, sinkⱼ, hwⱼ, hleft⟩
      rw [bytes hwⱼ] at hleft
      have hwhole := (hj k hk).mpr (Nat.le_refl k)
      rw [hleft] at hwhole ⊢
      refine (hwhole.eq_of_length_le ?_).symm
      by_cases hle : j ≤ items.length
      · exact (framed_take items ((hj j hle).mp (hleft ▸ List.prefix_refl _))).length_le
      · rw [List.take_of_length_le (by omega)] at hleft
        exact absurd hleft hproper

/-- Items that are bytes already. -/
def plainCodec : Codec (List UInt8) := ⟨.ok, .ok, fun _ _ h => h.symm⟩

/-- Two items, the second empty, in three pieces and then without the last byte. -/
theorem snapshot_read_back_pieces :
    readSnapshotItems plainCodec Reader.ofPieces [[1, 0], [0, 0, 7, 0], [], [0, 0, 0]] = ([[7], []], .eof) ∧
    ∃ k < 2, (readSnapshotItems plainCodec Reader.ofPieces [[1, 0, 0], [0, 7, 0, 0, 0]]).1 = [[7], []].take k := by
  have hlen : ∀ item ∈ [[7], []], ∀ data, plainCodec.marshal item = .ok data → data.length < 2 ^ 32 := by
    intro item hi data hm
    cases hm
    revert item
    decide
  have hnew : (⟨[], []⟩ : Sink).bytes = [] := rfl
  have hw : writeSnapshotItems plainCodec ⟨[], []⟩ [[7], []] = .ok ⟨[1, 0, 0, 0, 7, 0, 0, 0, 0], []⟩ := rfl
  have h := snapshot_read_back hnew hw hlen Reader.ofPieces
  refine ⟨(h _).1 rfl, ?_⟩
  obtain ⟨k, hk, _, hitems, _⟩ := (h [[1, 0, 0], [0, 7, 0, 0, 0]]).2 ⟨[0], rfl⟩ (by decide)
  exact ⟨k, hk, hitems⟩

end Doq.Storage
