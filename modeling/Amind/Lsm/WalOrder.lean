/-
# The order of the replay

While rotations come at later and later seconds, the segments and then
`wal.log` hold the appended records in order (`view_run`). The replay however
takes `wal.log`, the newest segment, as timestamp 0 and so first: it delivers
ascending sequence numbers exactly when `wal.log` or else every rotated
segment holds nothing to deliver (`replay_ascends_iff`).

Records of at most 64 MB are written whole and accepted by the reader
(`WalRecord.Small`). When all records are small, the segments are in the order
of their rotation and `wal.log` or else every rotated segment is flushed
(`InOrder`), the replay is exactly the list of unflushed records, oldest first
(`View.replay_small`). `RotationSafe` says of the segment files what makes a
write spare the unflushed records and keep the segments in order.
-/
import Amind.Lsm.WalView
import Amind.Core.Crc32

namespace Amind
namespace Lsm
namespace Wal

open Run (run Along)

variable {E : Env}

/-! ### The segments hold the records in order -/

namespace View

theorem ordered_step {v : View} (h : v.Ordered) {op : WalOp} (hl : RotatesLater E (v.files E.crc32c) op) :
    (v.step E op).Ordered := by
  have hseg : ∀ {clk : Clock}, (∀ s ∈ (v.files E.crc32c).segments, s.1 < clk.rotated) →
      ∀ s ∈ v.segments, s.1 < clk.rotated := by
    intro clk hs s hm
    exact hs (s.1, encodeAll E.crc32c s.2) (List.mem_map.mpr ⟨s, hm, rfl⟩)
  have hfull : ∀ r, (v.append r).Full E →
      E.maxSegmentSize ≤ ((v.files E.crc32c).live ++ encode E.crc32c r).length := by
    intro r hr
    simpa only [Full, append, files, encodeAll_append] using hr
  cases op with
  | appendPut seq key data clk =>
    exact ordered_writeRecord h fun hf => hseg (hl clk (if_pos (hfull _ hf)))
  | appendDelete seq key clk =>
    exact ordered_writeRecord h fun hf => hseg (hl clk (if_pos (hfull _ hf)))
  | rotate clk => exact ordered_rotate h (hseg (hl clk rfl))
  | expireOldSegments now => exact ordered_expire h now

end View

/-- After a run the directory holds records of the run, in order. -/
theorem view_run {ops : List WalOp} (ha : Along (step E) (RotatesLater E) WalDir.empty ops) :
    ∃ v : View, run (step E) WalDir.empty ops = v.files E.crc32c ∧ v.Ordered ∧
      v.records.Sublist (appended ops) := by
  have := Run.run_inv (step E)
    (I := fun h w => ∃ v : View, w = v.files E.crc32c ∧ v.Ordered ∧ v.records.Sublist (appended h))
    (C := RotatesLater E) (fun h w op ⟨v, hw, ho, hsub⟩ hc => by
      subst hw
      refine ⟨v.step E op, (View.files_step v op).symm, View.ordered_step ho hc, ?_⟩
      rw [appended_concat]
      exact (View.records_step_sublist v op).trans (hsub.append_right _))
    ops [] WalDir.empty ⟨View.empty, rfl, List.Pairwise.nil, List.Sublist.refl _⟩ ha
  simpa using this

/-! ### Ascending sequence numbers -/

/-- The sequence numbers ascend strictly. -/
def Ascends (rs : List WalRecord) : Prop := rs.Pairwise fun a b => a.seq < b.seq

theorem delivered_ascends {rs : List WalRecord} (h : Ascends rs) : Ascends (delivered rs) :=
  List.pairwise_map.mpr (List.Pairwise.sublist (List.takeWhile_sublist _) h)

theorem deliveredRotated_ascends : ∀ {ss : List (UInt64 × List WalRecord)},
    Ascends (ss.flatMap fun s => s.2) → Ascends (ss.flatMap fun s => delivered s.2)
  | [], _ => List.Pairwise.nil
  | s :: ss, h => by
    rw [Ascends, List.flatMap_cons] at h ⊢
    obtain ⟨h₁, h₂, h₃⟩ := List.pairwise_append.mp h
    refine List.pairwise_append.mpr ⟨delivered_ascends h₁, deliveredRotated_ascends h₂, ?_⟩
    intro a ha b hb
    obtain ⟨a₀, ha₀, rfl⟩ := mem_delivered ha
    obtain ⟨b₀, hb₀, rfl⟩ := mem_deliveredRotated (v := ⟨[], ss⟩) hb
    exact h₃ a₀ ha₀ b₀ hb₀

/-- What a segment file delivers above `minSeq`. -/
def deliveredAbove (E : Env) (minSeq : UInt64) (file : Bytes) : List WalRecord :=
  (segmentRecords E.crc32c file).filter fun r => minSeq < r.seq

/-- The rebuilt memtable holds, for every key the replay delivers, the record
of the highest sequence number. -/
def RebuildsHighest (rs : List WalRecord) : Prop :=
  ∀ r ∈ rs, (∀ r' ∈ rs, r'.key = r.key → r'.seq ≤ r.seq) →
    (rebuild rs).node r.key = some ⟨r.key, r.value, false⟩

theorem rebuildsHighest_of_ascends {rs : List WalRecord} (h : Ascends rs) : RebuildsHighest rs := by
  intro r hr hmax
  rw [node_rebuild, lastOf_of_highest h hr hmax]
  rfl

/-- One of two lists whose concatenation ascends the other way round is
empty. -/
theorem ascends_append_iff {as bs : List WalRecord} (ha : Ascends as) (hb : Ascends bs)
    (hlt : ∀ b ∈ bs, ∀ a ∈ as, b.seq < a.seq) : Ascends (as ++ bs) ↔ as = [] ∨ bs = [] := by
  constructor
  · intro h
    by_contra hne
    obtain ⟨hne₁, hne₂⟩ := not_or.mp hne
    obtain ⟨a, hma⟩ := List.exists_mem_of_ne_nil as hne₁
    obtain ⟨b, hmb⟩ := List.exists_mem_of_ne_nil bs hne₂
    exact lt_asymm ((List.pairwise_append.mp h).2.2 a hma b hmb) (hlt b hmb a hma)
  · rintro (rfl | rfl)
    · exact hb
    · simpa using ha

/-- **The replay delivers ascending sequence numbers, and the memtable built
from it the highest record of every key, exactly when `wal.log` or else every
rotated segment delivers nothing above `minSeq`.** -/
theorem replay_ascends_iff (ops : List WalOp) (minSeq : UInt64) (hs : SeqAscend ops)
    (ha : Along (step E) (RotatesLater E) WalDir.empty ops) :
    let w := run (step E) WalDir.empty ops
    Ascends (replay E w minSeq) ∧ RebuildsHighest (replay E w minSeq) ↔
      deliveredAbove E minSeq w.live = [] ∨ ∀ s ∈ w.segments, deliveredAbove E minSeq s.2 = [] := by
  intro w
  obtain ⟨v, hw, ho, hsub⟩ := view_run ha
  have hasc : Ascends (v.rotated ++ v.live) := List.Pairwise.sublist hsub hs
  obtain ⟨hrot, hlive, hlt⟩ := List.pairwise_append.mp hasc
  have hreplay : replay E w minSeq =
      (delivered v.live).filter (fun r => minSeq < r.seq) ++
        v.deliveredRotated.filter fun r => minSeq < r.seq := by
    show (allRecords E (run (step E) WalDir.empty ops)).filter _ = _
    rw [hw, View.allRecords_files ho, List.filter_append]
  have hiff : Ascends (replay E w minSeq) ↔
      (delivered v.live).filter (fun r => minSeq < r.seq) = [] ∨
        v.deliveredRotated.filter (fun r => minSeq < r.seq) = [] := by
    rw [hreplay]
    refine ascends_append_iff ((delivered_ascends hlive).filter _)
      ((deliveredRotated_ascends hrot).filter _) fun b hb a hmem => ?_
    obtain ⟨b₀, hb₀, rfl⟩ := mem_deliveredRotated (List.mem_filter.mp hb).1
    obtain ⟨a₀, ha₀, rfl⟩ := mem_delivered (List.mem_filter.mp hmem).1
    exact hlt b₀ hb₀ a₀ ha₀
  have hlive' : deliveredAbove E minSeq w.live = (delivered v.live).filter fun r => minSeq < r.seq := by
    show deliveredAbove E minSeq (run (step E) WalDir.empty ops).live = _
    rw [hw, deliveredAbove]
    simp only [View.files, segmentRecords_eq]
  have hrot' : (∀ s ∈ w.segments, deliveredAbove E minSeq s.2 = []) ↔
      v.deliveredRotated.filter (fun r => minSeq < r.seq) = [] := by
    show (∀ s ∈ (run (step E) WalDir.empty ops).segments, _) ↔ _
    rw [hw]
    simp only [View.files, List.forall_mem_map, deliveredAbove, segmentRecords_eq, View.deliveredRotated,
      List.filter_flatMap, List.flatMap_eq_nil_iff]
  rw [hlive', hrot', ← hiff]
  exact ⟨fun h => h.1, fun h => ⟨h, rebuildsHighest_of_ascends h⟩⟩

/-- A log of two puts of key 7 that rotates after the first. -/
def rewritten : List WalOp :=
  [.appendPut 1 7 [1, 1, 1, 1, 1, 1, 1, 1] ⟨100, 100⟩, .appendPut 2 7 [2] ⟨101, 101⟩]

/-- The limits of `rewritten`'s log: segments of 40 bytes. -/
def smallSegments : Env := ⟨crc32c, 40, 7 * 24 * 3600⟩

theorem replay_ascends_iff_rewritten :
    Ascends (replay smallSegments (run (step smallSegments) WalDir.empty rewritten) 1) ∧
      RebuildsHighest (replay smallSegments (run (step smallSegments) WalDir.empty rewritten) 1) :=
  (replay_ascends_iff rewritten 1 (by unfold SeqAscend; decide) (by decide)).mpr
    (Or.inr (by decide +kernel))

/-- The put in `wal.log` is replayed before the older one in the rotated
segment, which therefore wins. -/
theorem replay_not_ascending :
    SeqAscend rewritten ∧ Along (step smallSegments) (RotatesLater smallSegments) WalDir.empty rewritten ∧
      (replay smallSegments (run (step smallSegments) WalDir.empty rewritten) 0).map (·.seq) = [2, 1] ∧
      (rebuild (replay smallSegments (run (step smallSegments) WalDir.empty rewritten) 0)).getRaw 7 =
        some [1, 1, 1, 1, 1, 1, 1, 1] :=
  ⟨by unfold SeqAscend; decide +kernel, by decide +kernel, by decide +kernel, by decide +kernel⟩

/-! ### Small records -/

/-- The reader accepts the record, and its data was written whole. -/
def WalRecord.Small (r : WalRecord) : Prop := r.Readable ∧ r.stored = r

theorem small_putRecord (seq : UInt64) (k : Key) {data : Bytes} (h : data.length ≤ MAX_DATA_LEN) :
    (putRecord seq k data).Small := by
  refine ⟨⟨?_, fun ht => by cases ht⟩, WalRecord.stored_of_le h⟩
  exact (Nat.mod_le _ _).trans h

theorem small_deleteRecord (seq : UInt64) (k : Key) : (deleteRecord seq k).Small :=
  ⟨⟨Nat.zero_le _, fun _ => rfl⟩, rfl⟩

theorem delivered_small : ∀ {rs : List WalRecord}, (∀ r ∈ rs, r.Small) → delivered rs = rs
  | [], _ => rfl
  | r :: rs, h => by
    have hr := h r List.mem_cons_self
    have ih : delivered rs = rs := delivered_small fun r' hr' => h r' (List.mem_cons_of_mem _ hr')
    rw [delivered, List.takeWhile_cons, if_pos (by simpa using hr.1), List.map_cons, hr.2]
    exact congrArg _ ih

/-- What a segment file of small records delivers above the checkpoint. -/
theorem deliveredAbove_small {E : Env} {rs : List WalRecord} (h : ∀ r ∈ rs, r.Small) (ckpt : UInt64) :
    deliveredAbove E ckpt (encodeAll E.crc32c rs) = rs.filter fun r => ckpt < r.seq := by
  rw [deliveredAbove, segmentRecords_eq, delivered_small h]

/-- `wal.log` or else every rotated segment delivers nothing above the
checkpoint. -/
def InOrder (E : Env) (ckpt : UInt64) (w : WalDir) : Prop :=
  deliveredAbove E ckpt w.live = [] ∨ ∀ s ∈ w.segments, deliveredAbove E ckpt s.2 = []

instance (E : Env) (ckpt : UInt64) (w : WalDir) : Decidable (InOrder E ckpt w) := by
  unfold InOrder
  infer_instance

namespace View

variable {E : Env} {v : View}

theorem deliveredRotated_small (h : ∀ r ∈ v.records, r.Small) : v.deliveredRotated = v.rotated := by
  have hs : ∀ s ∈ v.segments, delivered s.2 = s.2 := fun s hs =>
    delivered_small fun r hr => h r (List.mem_append_left _ (List.mem_flatMap.mpr ⟨s, hs, hr⟩))
  unfold deliveredRotated rotated
  rw [List.flatMap_def, List.flatMap_def, List.map_congr_left hs]

theorem allRecords_small (ho : v.Ordered) (h : ∀ r ∈ v.records, r.Small) :
    allRecords E (v.files E.crc32c) = v.live ++ v.rotated := by
  rw [allRecords_files ho, deliveredRotated_small h, delivered_small fun r hr => h r (List.mem_append_right _ hr)]

/-- The replay delivers the unflushed records, oldest first. -/
theorem replay_small (ho : v.Ordered) (h : ∀ r ∈ v.records, r.Small) {ckpt : UInt64}
    (hi : InOrder E ckpt (v.files E.crc32c)) : replay E (v.files E.crc32c) ckpt = v.unflushed ckpt := by
  have hlive : ∀ r ∈ v.live, r.Small := fun r hr => h r (List.mem_append_right _ hr)
  rw [replay, allRecords_small ho h, unflushed, records, List.filter_append, List.filter_append]
  rcases hi with hi | hi
  · have hl : v.live.filter (fun r => ckpt < r.seq) = [] := by
      rw [← deliveredAbove_small (E := E) hlive]
      exact hi
    rw [hl, List.nil_append, List.append_nil]
  · have hr : v.rotated.filter (fun r => ckpt < r.seq) = [] := by
      rw [rotated, List.filter_flatMap, List.flatMap_eq_nil_iff]
      intro s hs
      have hsmall : ∀ r ∈ s.2, r.Small := fun r hr =>
        h r (List.mem_append_left _ (List.mem_flatMap.mpr ⟨s, hs, hr⟩))
      rw [← deliveredAbove_small (E := E) hsmall]
      exact hi (s.1, encodeAll E.crc32c s.2) (List.mem_map.mpr ⟨s, hs, rfl⟩)
    rw [hr, List.nil_append, List.append_nil]

end View

/-- A write, if it rotates, does so later than the segments there, and every
segment it then expires delivers nothing above the checkpoint. -/
def RotationSafe (E : Env) (ckpt : UInt64) (w : WalDir) (r : WalRecord) (clk : Clock) : Prop :=
  E.maxSegmentSize ≤ (w.live ++ encode E.crc32c r).length →
    (∀ s ∈ w.segments, s.1 < clk.rotated) ∧
      ∀ s ∈ w.segments ++ [(clk.rotated, w.live ++ encode E.crc32c r)],
        E.maxSegmentAge < (clk.expired - s.1).toNat → deliveredAbove E ckpt s.2 = []

instance (E : Env) (ckpt : UInt64) (w : WalDir) (r : WalRecord) (clk : Clock) :
    Decidable (RotationSafe E ckpt w r clk) := by
  unfold RotationSafe
  infer_instance

theorem RotationSafe.view {E : Env} {ckpt : UInt64} {v : View} {r : WalRecord} {clk : Clock}
    (h : RotationSafe E ckpt (v.files E.crc32c) r clk) (hs : ∀ x ∈ v.records, x.Small) (hr : r.Small) :
    View.LaterWrite E v r clk ∧ View.SparesWrite E ckpt v r clk := by
  have hfull : (v.append r).Full E → E.maxSegmentSize ≤ ((v.files E.crc32c).live ++ encode E.crc32c r).length := by
    intro hf
    simpa only [View.Full, View.append, View.files, View.encodeAll_append] using hf
  have hlater : View.LaterWrite E v r clk := fun hf s hm =>
    (h (hfull hf)).1 (s.1, encodeAll E.crc32c s.2) (List.mem_map.mpr ⟨s, hm, rfl⟩)
  have hflushed : ∀ rs : List WalRecord, (∀ x ∈ rs, x.Small) →
      deliveredAbove E ckpt (encodeAll E.crc32c rs) = [] → ∀ x ∈ rs, x.seq ≤ ckpt := by
    intro rs hrs hd x hx
    rw [deliveredAbove_small hrs, List.filter_eq_nil_iff] at hd
    simpa using hd x hx
  refine ⟨hlater, fun hf => ⟨fun s hm he => ?_, fun s hm hage => ?_⟩⟩
  · exact absurd he (hlater hf s hm).ne
  · rcases List.mem_append.mp hm with hm | hm
    · have hm' := (List.mem_filter.mp hm).1
      refine hflushed s.2 (fun x hx => hs x ?_) ((h (hfull hf)).2 (s.1, encodeAll E.crc32c s.2) ?_ hage)
      · exact List.mem_append_left _ (List.mem_flatMap.mpr ⟨s, hm', hx⟩)
      · exact List.mem_append_left _ (List.mem_map.mpr ⟨s, hm', rfl⟩)
    · rw [List.mem_singleton.mp hm] at hage ⊢
      refine hflushed (v.live ++ [r]) (fun x hx => ?_) ?_
      · rcases List.mem_append.mp hx with hx | hx
        · exact hs x (List.mem_append_right _ hx)
        · rw [List.mem_singleton.mp hx]
          exact hr
      · rw [View.encodeAll_append]
        exact (h (hfull hf)).2 (clk.rotated, encodeAll E.crc32c v.live ++ encode E.crc32c r)
          (List.mem_append_right _ (List.mem_singleton.mpr rfl)) hage

end Wal
end Lsm
end Amind
