/-
# Segments that were cut or damaged

A segment cut at any byte replays as the records whose frames are whole
(`replay_truncated`). A record whose 32 header bytes were altered so that the
reader refuses them ends the replay, if it is the magic or the version that is
wrong. If only the CRC is wrong, the reader goes on behind the number of bytes
the refused header itself gives, and parses whatever stands there: bytes of a
user's data included. `replay_damaged_iff` says for which segments nothing but
appended records is delivered all the same.

`readFrames` is the replay loop with the offset every delivered record was
read at, so that a record that stands in the middle of another one's data can
be told from one that was appended.
-/
import Mathlib.Logic.Relation
import Amind.Core.Crc32
import Amind.Lsm.WalOrder

namespace Amind
namespace Lsm
namespace Wal

open LittleEndian
open Relation (ReflTransGen)

/-- A put of at most 64 MB, or a delete, which has no data. -/
def WalRecord.Sized (r : WalRecord) : Prop := r.data.length ≤ MAX_DATA_LEN ∧ (r.type = .delete → r.data = [])

theorem WalRecord.Sized.small {r : WalRecord} (h : r.Sized) : r.Small := by
  refine ⟨⟨(Nat.mod_le _ _).trans h.1, fun ht => ?_⟩, WalRecord.stored_of_le h.1⟩
  rw [dataLen, h.2 ht]
  rfl

/-- Where the frame of the `i`-th record starts, or the end of the file. -/
def frameStart (crc : Bytes → UInt32) (rs : List WalRecord) (i : ℕ) : ℕ := (encodeAll crc (rs.take i)).length

section Frames

variable (crc : Bytes → UInt32)

@[simp] theorem frameStart_zero (rs : List WalRecord) : frameStart crc rs 0 = 0 := rfl

theorem encodeAll_cons (r : WalRecord) (rs : List WalRecord) :
    encodeAll crc (r :: rs) = encode crc r ++ encodeAll crc rs := List.flatMap_cons

theorem encodeAll_append (rs rs' : List WalRecord) :
    encodeAll crc (rs ++ rs') = encodeAll crc rs ++ encodeAll crc rs' := List.flatMap_append

theorem frameStart_succ (r : WalRecord) (rs : List WalRecord) (i : ℕ) :
    frameStart crc (r :: rs) (i + 1) = (encode crc r).length + frameStart crc rs i := by
  rw [frameStart, List.take_succ_cons, encodeAll_cons, List.length_append, frameStart]

/-! ### A cut segment -/

/-- A cut segment delivers a prefix of its records, those whose frames end
before the cut. -/
theorem segmentRecords_take : ∀ (rs : List WalRecord) (n : ℕ), (∀ r ∈ rs, r.Small) →
    ∃ j ≤ rs.length, segmentRecords crc ((encodeAll crc rs).take n) = rs.take j ∧
      ∀ i ≤ rs.length, frameStart crc rs i ≤ n ↔ i ≤ j
  | [], n, _ => by
    refine ⟨0, le_rfl, ?_, fun i hi => ?_⟩
    · rw [encodeAll, List.flatMap_nil, List.take_nil]
      rfl
    · rw [Nat.le_zero.mp hi, frameStart_zero]
      simp
  | r :: rs, n, h => by
    have hr := h r List.mem_cons_self
    rw [encodeAll_cons]
    by_cases hn : n < (encode crc r).length
    · -- the cut is inside the first frame
      refine ⟨0, Nat.zero_le _, ?_, fun i _ => ?_⟩
      · rw [List.take_append_of_le_length hn.le, segmentRecords_of_stop crc (readRecord_torn crc hn), List.take_zero]
      · cases i with
        | zero => simp
        | succ i =>
          rw [frameStart_succ]
          omega
    · obtain ⟨j, hj, hrec, hwhole⟩ := segmentRecords_take rs (n - (encode crc r).length) fun x hx =>
        h x (List.mem_cons_of_mem _ hx)
      refine ⟨j + 1, Nat.succ_le_succ hj, ?_, fun i hi => ?_⟩
      · rw [List.take_append, List.take_of_length_le (Nat.not_lt.mp hn), segmentRecords_encode, if_pos hr.1, hr.2,
          hrec, List.take_succ_cons]
      · cases i with
        | zero => simp
        | succ i =>
          have hi' := hwhole i (Nat.le_of_succ_le_succ hi)
          rw [frameStart_succ]
          omega

end Frames

/-- **A segment cut at any byte** replays as the records above `minSeq` of a
prefix of what was written to it, the prefix of the records that lie wholly
inside the cut file. -/
theorem replay_truncated (E : Env) (rs : List WalRecord) (hrs : ∀ r ∈ rs, r.Sized) (n : ℕ) (minSeq : UInt64) :
    ∃ j ≤ rs.length,
      deliveredAbove E minSeq ((encodeAll E.crc32c rs).take n) = (rs.take j).filter (fun r => minSeq < r.seq) ∧
        ∀ i ≤ rs.length, frameStart E.crc32c rs i ≤ n ↔ i ≤ j := by
  obtain ⟨j, hj, hrec, hwhole⟩ := segmentRecords_take E.crc32c rs n fun r hr => (hrs r hr).small
  exact ⟨j, hj, by rw [deliveredAbove, hrec], hwhole⟩

theorem replay_truncated_secondPut :
    ∃ j ≤ 2, deliveredAbove (Env.ofCrc crc32c) 0
        ((encodeAll crc32c [putRecord 1 7 [1, 2], deleteRecord 2 7]).take 50) =
          ([putRecord 1 7 [1, 2], deleteRecord 2 7].take j).filter (fun r => (0 : UInt64) < r.seq) ∧
      ∀ i ≤ 2, frameStart crc32c [putRecord 1 7 [1, 2], deleteRecord 2 7] i ≤ 50 ↔ i ≤ j :=
  replay_truncated (Env.ofCrc crc32c) [putRecord 1 7 [1, 2], deleteRecord 2 7]
    (fun r hr => by
      rcases List.mem_pair.mp hr with rfl | rfl
      · exact ⟨by decide, fun h => by cases h⟩
      · exact ⟨by decide, fun _ => rfl⟩) 50 0

/-! ### A refused header -/

section Frames

variable (crc : Bytes → UInt32) (minSeq : UInt64)

/-- The reader refuses the header: its magic, its version or its CRC is
wrong. -/
def Refused (h : Bytes) : Prop :=
  field h 0 2 ≠ WAL_MAGIC ∨ field h 2 2 ≠ WAL_VERSION ∨ (crc (h.take 28)).toNat ≠ field h 28 4

instance (h : Bytes) : Decidable (Refused crc h) := by
  unfold Refused
  infer_instance

/-- The replay loop with the offsets of the records it delivers, `none` if the
fuel is used up before the loop ends. -/
def readFrames : ℕ → ℕ → Bytes → Option (List (ℕ × WalRecord))
  | 0, _, _ => none
  | n + 1, off, bs =>
    match readRecord crc bs with
    | .stop => some []
    | .skip rest => readFrames n (off + (bs.length - rest.length)) rest
    | .record r rest =>
      (readFrames n (off + (bs.length - rest.length)) rest).map fun fs =>
        if minSeq < r.seq then (off, r) :: fs else fs

/-- The replay of what is left of a segment from the offset on. -/
def framesFrom (off : ℕ) (bs : Bytes) : Option (List (ℕ × WalRecord)) := readFrames crc minSeq (bs.length + 1) off bs

/-- The segment of the records `pre`, a record with its header overwritten by
`h`, and the records `post`. -/
def damaged (pre : List WalRecord) (h : Bytes) (r : WalRecord) (post : List WalRecord) : Bytes :=
  encodeAll crc pre ++ (h ++ (payload crc r ++ encodeAll crc post))

/-- The offset is a frame of an appended record, or the end of the file. -/
def AtFrame (rs : List WalRecord) (q : ℕ) : Prop := ∃ i ≤ rs.length, q = frameStart crc rs i

/-- Every record was read at the frame of an appended record, and is what that
frame holds. -/
def Appended (rs : List WalRecord) (fs : List (ℕ × WalRecord)) : Prop :=
  ∀ f ∈ fs, ∃ i x, rs[i]? = some x ∧ f = (frameStart crc rs i, x.stored)

/-- A whole record above `minSeq`, its CRCs right, stands at the offset. -/
def HoldsRecord (bs : Bytes) (q : ℕ) : Prop := ∃ r rest, readRecord crc (bs.drop q) = .record r rest ∧ minSeq < r.seq

/-- At the offset `q` stands a header or data that fail their CRC, or an old
record, behind which the reader goes on at `q'`. -/
inductive Passes (bs : Bytes) (q : ℕ) : ℕ → Prop
  | skip {rest : Bytes} (h : readRecord crc (bs.drop q) = .skip rest) :
    Passes bs q (q + ((bs.drop q).length - rest.length))
  | old {r : WalRecord} {rest : Bytes} (h : readRecord crc (bs.drop q) = .record r rest) (hs : r.seq ≤ minSeq) :
    Passes bs q (q + ((bs.drop q).length - rest.length))

/-- Where the reader goes on behind a header whose CRC is wrong: what the
header's length field says. -/
def resumeAt (h : Bytes) (off : ℕ) : ℕ :=
  off + WAL_HEADER_SIZE + if 0 < field h 24 4 then (field h 24 4 + 4) % 2 ^ 32 else 0

/-- From the offset on the reader comes to no whole record that stands in the
middle of a frame. -/
def NoStray (rs : List WalRecord) (bs : Bytes) (q₀ : ℕ) : Prop :=
  ∀ q, ReflTransGen (Passes crc minSeq bs) q₀ q → HoldsRecord crc minSeq bs q → AtFrame crc rs q

/-! ### The loop's steps -/

variable {crc minSeq}

theorem readFrames_fuel : ∀ (n m off : ℕ) (bs : Bytes), bs.length < n → bs.length < m →
    readFrames crc minSeq n off bs = readFrames crc minSeq m off bs
  | 0, _, _, _, hn, _ => absurd hn (Nat.not_lt_zero _)
  | _, 0, _, _, _, hm => absurd hm (Nat.not_lt_zero _)
  | n + 1, m + 1, off, bs, hn, hm => by
    simp only [readFrames]
    cases hr : readRecord crc bs with
    | stop => rfl
    | skip rest =>
      have hlt : rest.length < bs.length := readRecord_shorter crc (by rw [hr]; rfl)
      exact readFrames_fuel n m _ rest (by omega) (by omega)
    | record r rest =>
      have hlt : rest.length < bs.length := readRecord_shorter crc (by rw [hr]; rfl)
      simp only [readFrames_fuel n m _ rest (by omega) (by omega)]

theorem readRecord_nil : readRecord crc [] = .stop := by
  unfold readRecord
  rw [if_pos (by decide)]

theorem framesFrom_stop {off : ℕ} {bs : Bytes} (h : readRecord crc bs = .stop) :
    framesFrom crc minSeq off bs = some [] := by
  simp only [framesFrom, readFrames, h]

theorem framesFrom_skip {off : ℕ} {bs rest : Bytes} (h : readRecord crc bs = .skip rest) :
    framesFrom crc minSeq off bs = framesFrom crc minSeq (off + (bs.length - rest.length)) rest := by
  have hlt : rest.length < bs.length := readRecord_shorter crc (by rw [h]; rfl)
  simp only [framesFrom, readFrames, h]
  exact readFrames_fuel _ _ _ rest hlt (Nat.lt_succ_self _)

theorem framesFrom_record {off : ℕ} {bs rest : Bytes} {r : WalRecord} (h : readRecord crc bs = .record r rest) :
    framesFrom crc minSeq off bs = (framesFrom crc minSeq (off + (bs.length - rest.length)) rest).map fun fs =>
      if minSeq < r.seq then (off, r) :: fs else fs := by
  have hlt : rest.length < bs.length := readRecord_shorter crc (by rw [h]; rfl)
  rw [framesFrom, readFrames]
  simp only [h]
  rw [readFrames_fuel bs.length _ _ rest hlt (Nat.lt_succ_self _)]
  rfl

/-- The loop ends. -/
theorem framesFrom_isSome (crc : Bytes → UInt32) (minSeq : UInt64) (bs : Bytes) (off : ℕ) :
    (framesFrom crc minSeq off bs).isSome := by
  induction hn : bs.length using Nat.strong_induction_on generalizing bs off with
  | _ n ih =>
    cases hr : readRecord crc bs with
    | stop => rw [framesFrom_stop hr]; rfl
    | skip rest =>
      rw [framesFrom_skip hr]
      exact ih _ (hn ▸ readRecord_shorter crc (by rw [hr]; rfl)) _ _ rfl
    | record r rest =>
      rw [framesFrom_record hr, Option.isSome_map]
      exact ih _ (hn ▸ readRecord_shorter crc (by rw [hr]; rfl)) _ _ rfl

/-- The records the loop delivers are those of `deliveredAbove`. -/
theorem map_framesFrom (crc : Bytes → UInt32) (minSeq : UInt64) (bs : Bytes) (off : ℕ) :
    (framesFrom crc minSeq off bs).map (List.map Prod.snd) =
      some ((segmentRecords crc bs).filter fun r => minSeq < r.seq) := by
  induction hn : bs.length using Nat.strong_induction_on generalizing bs off with
  | _ n ih =>
    cases hr : readRecord crc bs with
    | stop => rw [framesFrom_stop hr, segmentRecords_of_stop crc hr]; rfl
    | skip rest =>
      rw [framesFrom_skip hr, segmentRecords_skip crc hr]
      exact ih _ (hn ▸ readRecord_shorter crc (by rw [hr]; rfl)) _ _ rfl
    | record r rest =>
      have hrest := ih _ (hn ▸ readRecord_shorter crc (by rw [hr]; rfl)) rest (off + (bs.length - rest.length)) rfl
      obtain ⟨fs, hfs⟩ := Option.isSome_iff_exists.mp (framesFrom_isSome crc minSeq rest
        (off + (bs.length - rest.length)))
      rw [framesFrom_record hr, segmentRecords_record crc hr]
      rw [hfs] at hrest ⊢
      simp only [Option.map_some, Option.some.injEq] at hrest ⊢
      by_cases hs : minSeq < r.seq
      · simp [hs, hrest]
      · simp [hs, hrest]

/-- The reader goes on at an offset of the file. -/
theorem readRecord_suffix {bs rest : Bytes} (h : (readRecord crc bs).rest = some rest) :
    bs.drop (bs.length - rest.length) = rest := by
  have hdd : ∀ n, rest = (bs.drop WAL_HEADER_SIZE).drop n → bs.drop (bs.length - rest.length) = rest := by
    intro n hn
    rw [List.drop_drop] at hn
    subst hn
    rw [List.length_drop]
    by_cases hle : WAL_HEADER_SIZE + n ≤ bs.length
    · rw [Nat.sub_sub_self hle]
    · rw [List.drop_of_length_le (by omega), List.drop_of_length_le (by omega)]
  unfold readRecord at h
  by_cases hlen : bs.length < WAL_HEADER_SIZE
  · simp [hlen, ReadStep.rest] at h
  · simp only [if_neg hlen] at h
    repeat' split at h
    all_goals
      simp only [ReadStep.rest, reduceCtorEq, Option.some.injEq] at h
    all_goals
      first | exact hdd _ h.symm | exact hdd 0 h.symm

theorem drop_suffix {bs rest : Bytes} {q : ℕ} (h : (readRecord crc (bs.drop q)).rest = some rest) :
    bs.drop (q + ((bs.drop q).length - rest.length)) = rest := by
  rw [← List.drop_drop]
  exact readRecord_suffix h

/-! ### Runs over whole frames -/

/-- Records that were not altered are delivered at their frames. -/
theorem framesFrom_encodeAll (crc : Bytes → UInt32) (minSeq : UInt64) (tail : Bytes) :
    ∀ (rs : List WalRecord) (off : ℕ), ∃ ps : List (ℕ × WalRecord),
      (∀ f ∈ ps, ∃ i x, rs[i]? = some x ∧ f = (off + frameStart crc rs i, x.stored)) ∧
      framesFrom crc minSeq off (encodeAll crc rs ++ tail) =
        if ∀ r ∈ rs, r.Readable then
          (framesFrom crc minSeq (off + (encodeAll crc rs).length) tail).map (ps ++ ·)
        else some ps
  | [], off => by
    refine ⟨[], fun f hf => absurd hf List.not_mem_nil, ?_⟩
    rw [if_pos fun r hr => absurd hr List.not_mem_nil]
    exact Option.map_id'.symm
  | r :: rs, off => by
    have hread := readRecord_encode crc r (encodeAll crc rs ++ tail)
    rw [encodeAll_cons, List.append_assoc]
    by_cases hr : r.Readable
    · rw [if_pos hr] at hread
      obtain ⟨ps, hps, hrest⟩ := framesFrom_encodeAll crc minSeq tail rs (off + (encode crc r).length)
      have hoff : off + ((encode crc r ++ (encodeAll crc rs ++ tail)).length - (encodeAll crc rs ++ tail).length) =
          off + (encode crc r).length := by
        rw [List.length_append, Nat.add_sub_cancel]
      refine ⟨if minSeq < r.stored.seq then (off, r.stored) :: ps else ps, fun f hf => ?_, ?_⟩
      · have hf' : f = (off, r.stored) ∨ f ∈ ps := by
          split at hf
          · exact List.mem_cons.mp hf
          · exact .inr hf
        rcases hf' with rfl | hf'
        · exact ⟨0, r, rfl, rfl⟩
        · obtain ⟨i, x, hi, rfl⟩ := hps f hf'
          exact ⟨i + 1, x, hi, by rw [frameStart_succ, Nat.add_assoc]⟩
      · rw [framesFrom_record hread, hoff, hrest, List.length_append, Nat.add_assoc]
        by_cases hall : ∀ x ∈ rs, x.Readable
        · rw [if_pos hall, if_pos (List.forall_mem_cons.mpr ⟨hr, hall⟩), Option.map_map]
          refine congrFun (congrArg _ (funext fun fs => ?_)) _
          simp only [Function.comp_apply]
          split <;> rfl
        · rw [if_neg hall, if_neg fun h => hall (List.forall_mem_cons.mp h).2]
          rfl
    · rw [if_neg hr] at hread
      refine ⟨[], fun f hf => absurd hf List.not_mem_nil, ?_⟩
      rw [framesFrom_stop hread, if_neg fun h => hr (List.forall_mem_cons.mp h).1]

theorem frameStart_add (rs : List WalRecord) (i j : ℕ) :
    frameStart crc rs i + frameStart crc (rs.drop i) j = frameStart crc rs (i + j) := by
  rw [frameStart, frameStart, frameStart, ← List.length_append, ← encodeAll_append, List.take_add]

theorem drop_frameStart (rs : List WalRecord) (i : ℕ) :
    (encodeAll crc rs).drop (frameStart crc rs i) = encodeAll crc (rs.drop i) := by
  conv_lhs => rw [← List.take_append_drop i rs, encodeAll_append]
  rw [frameStart, List.take_append_drop, List.drop_left]

/-! ### Going on after the refused header -/

/-- The file ends with frames that were not altered. -/
theorem passes_tail {A : Bytes} {post : List WalRecord} {j q' : ℕ}
    (h : Passes crc minSeq (A ++ encodeAll crc post) (A.length + frameStart crc post j) q') :
    ∃ j', q' = A.length + frameStart crc post j' := by
  have hdrop : (A ++ encodeAll crc post).drop (A.length + frameStart crc post j) = encodeAll crc (post.drop j) := by
    rw [← List.drop_drop, List.drop_left, drop_frameStart]
  have hnext : ∀ rest, (readRecord crc (encodeAll crc (post.drop j))).rest = some rest →
      ∃ j', A.length + frameStart crc post j + ((encodeAll crc (post.drop j)).length - rest.length) =
        A.length + frameStart crc post j' := by
    intro rest hrest
    cases hp : post.drop j with
    | nil =>
      have hstop : readRecord crc (encodeAll crc []) = .stop := readRecord_nil
      rw [hp, hstop] at hrest
      cases hrest
    | cons x xs =>
      refine ⟨j + 1, ?_⟩
      rw [hp, encodeAll_cons, readRecord_encode] at hrest
      have hx : frameStart crc (post.drop j) 1 = (encode crc x).length := by
        rw [hp, frameStart_succ, frameStart_zero, Nat.add_zero]
      split at hrest
      · have hrest' : rest = encodeAll crc xs := (Option.some.inj hrest).symm
        rw [hrest', encodeAll_cons, List.length_append, Nat.add_sub_cancel, ← frameStart_add, hx, Nat.add_assoc]
      · cases hrest
  cases h with
  | skip h =>
    rw [hdrop] at h ⊢
    exact hnext _ (by rw [h]; rfl)
  | old h hs =>
    rw [hdrop] at h ⊢
    exact hnext _ (by rw [h]; rfl)

theorem reach_tail {A : Bytes} {post : List WalRecord} {j q : ℕ}
    (h : ReflTransGen (Passes crc minSeq (A ++ encodeAll crc post)) (A.length + frameStart crc post j) q) :
    ∃ j', q = A.length + frameStart crc post j' := by
  induction h with
  | refl => exact ⟨j, rfl⟩
  | tail _ hstep ih =>
    obtain ⟨j', rfl⟩ := ih
    exact passes_tail hstep

/-- An offset the reader passes is as clean as the one it goes on at. -/
theorem noStray_passes {rs : List WalRecord} {bs : Bytes} {q q₂ : ℕ} (h : Passes crc minSeq bs q q₂) :
    NoStray crc minSeq rs bs q ↔ NoStray crc minSeq rs bs q₂ := by
  have honly : ∀ q', Passes crc minSeq bs q q' → q' = q₂ := by
    intro q' h'
    cases h with
    | skip h => cases h' with
      | skip h' => rw [h] at h'; injection h' with e; rw [e]
      | old h' _ => rw [h] at h'; cases h'
    | old h _ => cases h' with
      | skip h' => rw [h] at h'; cases h'
      | old h' _ => rw [h] at h'; injection h' with _ e; rw [e]
  have hnot : ¬ HoldsRecord crc minSeq bs q := by
    rintro ⟨r, rest, hr, hs⟩
    cases h with
    | skip h => rw [h] at hr; cases hr
    | old h hle =>
      rw [h] at hr
      injection hr with e _
      exact absurd (e ▸ hle) (not_le.mpr hs)
  constructor
  · exact fun hq q' hreach => hq q' (ReflTransGen.head h hreach)
  · intro hq q' hreach hrec
    rcases ReflTransGen.cases_head hreach with rfl | ⟨q₁, hpass, hreach⟩
    · exact absurd hrec hnot
    · exact hq q' (honly q₁ hpass ▸ hreach) hrec

end Frames

section Damaged

variable {crc : Bytes → UInt32} {minSeq : UInt64} {pre post : List WalRecord} {r : WalRecord} {h : Bytes}

theorem encodeAll_length (rs : List WalRecord) : (encodeAll crc rs).length = frameStart crc rs rs.length := by
  rw [frameStart, List.take_length]

/-- The bytes before the records behind the damaged one. -/
def front (crc : Bytes → UInt32) (pre : List WalRecord) (h : Bytes) (r : WalRecord) : Bytes :=
  encodeAll crc pre ++ (h ++ payload crc r)

theorem damaged_eq : damaged crc pre h r post = front crc pre h r ++ encodeAll crc post := by
  simp only [damaged, front, List.append_assoc]

theorem length_front (hlen : h.length = WAL_HEADER_SIZE) :
    (front crc pre h r).length = frameStart crc (pre ++ r :: post) (pre.length + 1) := by
  have htake : (pre ++ r :: post).take (pre.length + 1) = pre ++ [r] := by
    rw [List.take_append, List.take_of_length_le (Nat.le_succ _), Nat.add_sub_cancel_left]
    rfl
  rw [frameStart, htake, encodeAll_append, front, List.length_append, List.length_append, List.length_append, hlen,
    encodeAll_cons, List.length_append, encode, List.length_append, length_header]
  rfl

/-- The frames behind the damaged one are where they were. -/
theorem frameStart_behind (hlen : h.length = WAL_HEADER_SIZE) (j : ℕ) :
    frameStart crc (pre ++ r :: post) (pre.length + 1 + j) = (front crc pre h r).length + frameStart crc post j := by
  have hdrop : (pre ++ r :: post).drop (pre.length + 1) = post := by
    rw [List.drop_append, List.drop_of_length_le (Nat.le_succ _), Nat.add_sub_cancel_left]
    rfl
  rw [← frameStart_add, hdrop, length_front hlen]

theorem frameStart_le (rs : List WalRecord) {i j : ℕ} (hij : i ≤ j) : frameStart crc rs i ≤ frameStart crc rs j := by
  obtain ⟨k, rfl⟩ := Nat.exists_eq_add_of_le hij
  rw [← frameStart_add]
  exact Nat.le_add_right _ _

theorem frameStart_append_left {i : ℕ} (hi : i ≤ pre.length) (rs : List WalRecord) :
    frameStart crc (pre ++ rs) i = frameStart crc pre i := by
  rw [frameStart, List.take_append_of_le_length hi, frameStart]

/-- A frame behind the refused header is one of a later record. -/
theorem behind_of_atFrame (hlen : h.length = WAL_HEADER_SIZE) {q : ℕ}
    (hq : (encodeAll crc pre).length < q) (hat : AtFrame crc (pre ++ r :: post) q) :
    ∃ j ≤ post.length, q = (front crc pre h r).length + frameStart crc post j := by
  obtain ⟨i, hi, rfl⟩ := hat
  have hlt : pre.length < i := by
    by_contra hle
    rw [frameStart_append_left (Nat.not_lt.mp hle), encodeAll_length] at hq
    exact absurd hq (not_lt.mpr (frameStart_le pre (Nat.not_lt.mp hle)))
  obtain ⟨j, rfl⟩ := Nat.exists_eq_add_of_le hlt
  rw [List.length_append, List.length_cons] at hi
  exact ⟨j, by omega, frameStart_behind hlen j⟩

theorem atFrame_behind (hlen : h.length = WAL_HEADER_SIZE) {j : ℕ} :
    AtFrame crc (pre ++ r :: post) ((front crc pre h r).length + frameStart crc post j) := by
  rw [← frameStart_behind hlen]
  by_cases hj : pre.length + 1 + j ≤ (pre ++ r :: post).length
  · exact ⟨_, hj, rfl⟩
  · refine ⟨(pre ++ r :: post).length, le_rfl, ?_⟩
    rw [frameStart, frameStart, List.take_length, List.take_of_length_le (Nat.le_of_not_le hj)]

/-- Behind the damaged record everything is delivered at its frame. -/
theorem appended_tail (crc : Bytes → UInt32) (minSeq : UInt64) (pre : List WalRecord) (r : WalRecord)
    (post : List WalRecord) (hlen : h.length = WAL_HEADER_SIZE) (j : ℕ) :
    ∃ fs, framesFrom crc minSeq ((front crc pre h r).length + frameStart crc post j) (encodeAll crc (post.drop j)) =
        some fs ∧
      Appended crc (pre ++ r :: post) fs := by
  obtain ⟨ps, hps, hfs⟩ := framesFrom_encodeAll crc minSeq [] (post.drop j)
    ((front crc pre h r).length + frameStart crc post j)
  have hend : ∀ off, framesFrom crc minSeq off [] = some [] := fun off => framesFrom_stop readRecord_nil
  have happ : Appended crc (pre ++ r :: post) ps := by
    intro f hf
    obtain ⟨i, x, hi, rfl⟩ := hps f hf
    refine ⟨pre.length + 1 + (j + i), x, ?_, ?_⟩
    · rw [List.getElem?_drop] at hi
      have hj : pre.length + 1 + (j + i) - pre.length = j + i + 1 := by omega
      rw [List.getElem?_append_right (by omega), ← hi, hj]
      rfl
    · rw [frameStart_behind hlen, ← frameStart_add post, Nat.add_assoc]
  rw [List.append_nil] at hfs
  refine ⟨ps, ?_, happ⟩
  rw [hfs, hend]
  split
  · rw [Option.map_some, List.append_nil]
  · rfl

/-- From an offset behind the refused header, only appended records are
delivered exactly when no stray record is met. -/
theorem appended_from_iff (crc : Bytes → UInt32) (minSeq : UInt64) (pre : List WalRecord) (r : WalRecord)
    (post : List WalRecord) (hlen : h.length = WAL_HEADER_SIZE) {q : ℕ} (hq : (encodeAll crc pre).length < q) :
    ∃ fs, framesFrom crc minSeq q ((damaged crc pre h r post).drop q) = some fs ∧
      (Appended crc (pre ++ r :: post) fs ↔
        NoStray crc minSeq (pre ++ r :: post) (damaged crc pre h r post) q) := by
  generalize hn : ((damaged crc pre h r post).drop q).length = n
  induction n using Nat.strong_induction_on generalizing q with
  | _ n ih =>
    by_cases hat : AtFrame crc (pre ++ r :: post) q
    · -- from a frame on, every offset the reader comes to is a frame
      obtain ⟨j, -, rfl⟩ := behind_of_atFrame hlen hq hat
      have hdrop : (damaged crc pre h r post).drop ((front crc pre h r).length + frameStart crc post j) =
          encodeAll crc (post.drop j) := by
        rw [damaged_eq, ← List.drop_drop, List.drop_left, drop_frameStart]
      obtain ⟨fs, hfs, happ⟩ := appended_tail crc minSeq pre r post hlen j
      refine ⟨fs, by rw [hdrop, hfs], iff_of_true happ fun q' hreach hrec => ?_⟩
      rw [damaged_eq] at hreach
      obtain ⟨j', rfl⟩ := reach_tail hreach
      exact atFrame_behind hlen
    have hgo : ∀ rest, (readRecord crc ((damaged crc pre h r post).drop q)).rest = some rest →
        Passes crc minSeq (damaged crc pre h r post) q
          (q + (((damaged crc pre h r post).drop q).length - rest.length)) →
        ∃ fs, framesFrom crc minSeq (q + (((damaged crc pre h r post).drop q).length - rest.length)) rest = some fs ∧
          (Appended crc (pre ++ r :: post) fs ↔
            NoStray crc minSeq (pre ++ r :: post) (damaged crc pre h r post) q) := by
      intro rest hrest hpass
      have hdrop := drop_suffix hrest
      have hshort := readRecord_shorter crc hrest
      obtain ⟨fs, hfs, hiff⟩ := ih rest.length (hn ▸ hshort)
        (q := q + (((damaged crc pre h r post).drop q).length - rest.length)) (by omega) (by rw [hdrop])
      rw [hdrop] at hfs
      exact ⟨fs, hfs, hiff.trans (noStray_passes hpass).symm⟩
    cases hr : readRecord crc ((damaged crc pre h r post).drop q) with
    | stop =>
      refine ⟨[], framesFrom_stop hr, iff_of_true (fun f hf => absurd hf List.not_mem_nil) fun q' hreach hrec => ?_⟩
      rcases ReflTransGen.cases_head hreach with rfl | ⟨q₁, hpass, -⟩
      · obtain ⟨x, rest, hx, -⟩ := hrec
        rw [hr] at hx
        cases hx
      · cases hpass with
        | skip hx => rw [hr] at hx; cases hx
        | old hx _ => rw [hr] at hx; cases hx
    | skip rest =>
      rw [framesFrom_skip hr]
      exact hgo rest (by rw [hr]; rfl) (.skip hr)
    | record x rest =>
      rw [framesFrom_record hr]
      by_cases hs : minSeq < x.seq
      · -- the record that is delivered here was not appended
        obtain ⟨fs, hfs⟩ := Option.isSome_iff_exists.mp (framesFrom_isSome crc minSeq rest
          (q + (((damaged crc pre h r post).drop q).length - rest.length)))
        refine ⟨(q, x) :: fs, by rw [hfs, Option.map_some, if_pos hs], iff_of_false (fun happ => hat ?_) fun hno => ?_⟩
        · obtain ⟨i, y, hi, he⟩ := happ (q, x) List.mem_cons_self
          obtain ⟨hlt, -⟩ := List.getElem?_eq_some_iff.mp hi
          exact ⟨i, hlt.le, (Prod.mk.inj he).1⟩
        · exact hat (hno q .refl ⟨x, rest, hr, hs⟩)
      · obtain ⟨fs, hfs, hiff⟩ := hgo rest (by rw [hr]; rfl) (.old hr (not_lt.mp hs))
        exact ⟨fs, by rw [hfs, Option.map_some, if_neg hs], hiff⟩

/-- A refused header ends the replay, or is skipped with as many bytes as its
length field says. -/
theorem readRecord_refused (hlen : h.length = WAL_HEADER_SIZE) (href : Refused crc h) (rest : Bytes) :
    readRecord crc (h ++ rest) =
      if field h 0 2 = WAL_MAGIC ∧ field h 2 2 = WAL_VERSION then
        .skip (rest.drop (if 0 < field h 24 4 then (field h 24 4 + 4) % 2 ^ 32 else 0))
      else .stop := by
  have ht : (h ++ rest).take WAL_HEADER_SIZE = h := by rw [← hlen, List.take_left]
  have hd : (h ++ rest).drop WAL_HEADER_SIZE = rest := by rw [← hlen, List.drop_left]
  unfold readRecord
  rw [if_neg (by rw [List.length_append]; omega), ht, hd]
  dsimp only
  by_cases hm : field h 0 2 = WAL_MAGIC
  · by_cases hv : field h 2 2 = WAL_VERSION
    · have hc : (crc (h.take 28)).toNat ≠ field h 28 4 := by
        rcases href with hm' | hv' | hc
        · exact absurd hm hm'
        · exact absurd hv hv'
        · exact hc
      have hgo : field h 0 2 = WAL_MAGIC ∧ field h 2 2 = WAL_VERSION := ⟨hm, hv⟩
      rw [if_neg (not_not.mpr hm), if_neg (not_not.mpr hv), if_pos hc, if_pos hgo]
      by_cases hl : 0 < field h 24 4
      · rw [if_pos hl, if_pos hl]
      · rw [if_neg hl, if_neg hl, List.drop_zero]
    · rw [if_neg (not_not.mpr hm), if_pos hv, if_neg fun hh => hv hh.2]
  · rw [if_pos hm, if_neg fun hh => hm hh.1]

/-- The replay stops before the refused header, or at it because its magic or
its version is wrong, or comes to no stray record from where the header's
length field leads. -/
def ResumesSafely (crc : Bytes → UInt32) (minSeq : UInt64) (pre : List WalRecord) (h : Bytes) (r : WalRecord)
    (post : List WalRecord) : Prop :=
  (∀ x ∈ pre, x.Readable) → field h 0 2 = WAL_MAGIC → field h 2 2 = WAL_VERSION →
    NoStray crc minSeq (pre ++ r :: post) (damaged crc pre h r post) (resumeAt h (encodeAll crc pre).length)

/-- Where the loop stands after it has skipped the refused header. -/
theorem framesFrom_resume (hlen : h.length = WAL_HEADER_SIZE) :
    framesFrom crc minSeq
        ((encodeAll crc pre).length + ((h ++ (payload crc r ++ encodeAll crc post)).length -
          ((payload crc r ++ encodeAll crc post).drop
            (if 0 < field h 24 4 then (field h 24 4 + 4) % 2 ^ 32 else 0)).length))
        ((payload crc r ++ encodeAll crc post).drop (if 0 < field h 24 4 then (field h 24 4 + 4) % 2 ^ 32 else 0)) =
      framesFrom crc minSeq (resumeAt h (encodeAll crc pre).length)
        ((damaged crc pre h r post).drop (resumeAt h (encodeAll crc pre).length)) := by
  have hdrop : (damaged crc pre h r post).drop (resumeAt h (encodeAll crc pre).length) =
      (payload crc r ++ encodeAll crc post).drop
        (if 0 < field h 24 4 then (field h 24 4 + 4) % 2 ^ 32 else 0) := by
    rw [resumeAt, damaged, Nat.add_assoc, ← List.drop_drop, List.drop_left, ← List.drop_drop, ← hlen, List.drop_left]
  rw [hdrop, resumeAt]
  generalize (if 0 < field h 24 4 then (field h 24 4 + 4) % 2 ^ 32 else 0) = k
  by_cases hk : k ≤ (payload crc r ++ encodeAll crc post).length
  · congr 1
    rw [List.length_append, List.length_drop, hlen]
    omega
  · -- the skip leads behind the end of the file
    rw [List.drop_of_length_le (Nat.le_of_not_le hk), framesFrom_stop readRecord_nil, framesFrom_stop readRecord_nil]

/-- **What a refused header brings in.** For every list of records and every
header that is written over that of one of them and fails its magic, version or
CRC check, the replay ends, and delivers only appended records, each read at
its frame, exactly when it resumes safely. -/
theorem replay_damaged_iff (crc : Bytes → UInt32) (minSeq : UInt64) (pre : List WalRecord) (h : Bytes) (r : WalRecord)
    (post : List WalRecord) (hlen : h.length = WAL_HEADER_SIZE) (href : Refused crc h) :
    ∃ fs, framesFrom crc minSeq 0 (damaged crc pre h r post) = some fs ∧
      fs.map Prod.snd = (segmentRecords crc (damaged crc pre h r post)).filter (fun x => minSeq < x.seq) ∧
      (Appended crc (pre ++ r :: post) fs ↔ ResumesSafely crc minSeq pre h r post) := by
  obtain ⟨ps, hps, hfs⟩ := framesFrom_encodeAll crc minSeq (h ++ (payload crc r ++ encodeAll crc post))
    pre 0
  have hps' : Appended crc (pre ++ r :: post) ps := by
    intro f hf
    obtain ⟨i, x, hi, rfl⟩ := hps f hf
    obtain ⟨hlt, -⟩ := List.getElem?_eq_some_iff.mp hi
    refine ⟨i, x, by rw [List.getElem?_append_left hlt, hi], ?_⟩
    rw [Nat.zero_add, frameStart_append_left hlt.le]
  have hmap := map_framesFrom crc minSeq (damaged crc pre h r post) 0
  suffices hmain : ∃ fs, framesFrom crc minSeq 0 (damaged crc pre h r post) = some fs ∧
      (Appended crc (pre ++ r :: post) fs ↔ ResumesSafely crc minSeq pre h r post) by
    obtain ⟨fs, hsome, hiff⟩ := hmain
    rw [hsome] at hmap
    exact ⟨fs, hsome, Option.some.inj hmap, hiff⟩
  change framesFrom crc minSeq 0 (damaged crc pre h r post) = _ at hfs
  rw [Nat.zero_add] at hfs
  by_cases hall : ∀ x ∈ pre, x.Readable
  · rw [if_pos hall] at hfs
    have hread := readRecord_refused hlen href (payload crc r ++ encodeAll crc post)
    by_cases hgo : field h 0 2 = WAL_MAGIC ∧ field h 2 2 = WAL_VERSION
    · rw [if_pos hgo] at hread
      obtain ⟨fs, hsome, hiff⟩ := appended_from_iff crc minSeq pre r post hlen
        (q := resumeAt h (encodeAll crc pre).length) (by unfold resumeAt WAL_HEADER_SIZE; omega)
      rw [framesFrom_skip hread, framesFrom_resume hlen, hsome, Option.map_some] at hfs
      refine ⟨ps ++ fs, hfs, ?_⟩
      have happ : Appended crc (pre ++ r :: post) (ps ++ fs) ↔ Appended crc (pre ++ r :: post) fs :=
        ⟨fun ha f hf => ha f (List.mem_append_right _ hf), fun ha f hf =>
          (List.mem_append.mp hf).elim (hps' f) (ha f)⟩
      rw [happ, hiff]
      exact ⟨fun hno _ _ _ => hno, fun hs => hs hall hgo.1 hgo.2⟩
    · rw [if_neg hgo] at hread
      rw [framesFrom_stop hread, Option.map_some, List.append_nil] at hfs
      exact ⟨ps, hfs, iff_of_true hps' fun _ hm hv => absurd ⟨hm, hv⟩ hgo⟩
  · rw [if_neg hall] at hfs
    exact ⟨ps, hfs, iff_of_true hps' fun hr => absurd hr hall⟩

end Damaged

/-- A put whose data are the bytes of another record. -/
def smuggler : WalRecord := putRecord 1 7 (encode crc32c (putRecord 2 9 [5]))

/-- Its header with the length field cleared. -/
def lengthless : Bytes := (headerBody smuggler).take 24 ++ toLE 4 0 ++ toLE 4 (crc32c (headerBody smuggler)).toNat

/-- A put of one byte with its header cleared: the replay stops there. -/
theorem replay_damaged_blank :
    ∃ fs, framesFrom crc32c 0 0 (damaged crc32c [] (List.replicate 32 0) (putRecord 1 7 [5]) []) = some fs ∧
      fs.map Prod.snd = (segmentRecords crc32c
        (damaged crc32c [] (List.replicate 32 0) (putRecord 1 7 [5]) [])).filter (fun x => (0 : UInt64) < x.seq) ∧
      (Appended crc32c ([] ++ [putRecord 1 7 [5]]) fs ↔
        ResumesSafely crc32c 0 [] (List.replicate 32 0) (putRecord 1 7 [5]) []) :=
  replay_damaged_iff crc32c 0 [] (List.replicate 32 0) (putRecord 1 7 [5]) [] rfl (.inl (by decide))

/-- With its length field cleared the header of `smuggler` fails its CRC, and
the record in the data, which was never appended, is delivered. -/
theorem replay_damaged_smuggled :
    lengthless.length = WAL_HEADER_SIZE ∧ Refused crc32c lengthless ∧
      framesFrom crc32c 0 0 (damaged crc32c [] lengthless smuggler []) = some [(32, putRecord 2 9 [5])] ∧
      ¬ Appended crc32c [smuggler] [(32, putRecord 2 9 [5])] ∧ putRecord 2 9 [5] ∉ [smuggler] := by
  refine ⟨by decide, by decide +kernel, by decide +kernel, fun happ => ?_, by decide +kernel⟩
  obtain ⟨i, x, hi, he⟩ := happ _ List.mem_cons_self
  cases i with
  | zero => exact absurd (Prod.mk.inj he).1 (by decide)
  | succ i => cases hi

end Wal
end Lsm
end Amind
