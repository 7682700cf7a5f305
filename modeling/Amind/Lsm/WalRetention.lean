/-
# Which records the log keeps

A record that is not flushed yet must stay in some segment file. A rotation
may overwrite the segment of its second, and expiry deletes by age alone, a
difference of 64-bit seconds; neither asks for the checkpoint. As long as
every rotation and every expiry meets flushed segments only
(`View.Spares`), no unflushed record is lost (`unflushed_present`).
-/
import Amind.Lsm.WalView
import Amind.Core.Crc32

namespace Amind
namespace Lsm
namespace Wal

open Run (run Along)

variable {E : Env}

/-- The record's bytes are in a segment file. -/
def Present (E : Env) (w : WalDir) (r : WalRecord) : Prop :=
  encode E.crc32c r <:+: w.live ∨ ∃ s ∈ w.segments, encode E.crc32c r <:+: s.2

instance (w : WalDir) (r : WalRecord) : Decidable (Present E w r) := by
  unfold Present
  infer_instance

theorem encode_of_mem (crc : Bytes → UInt32) {rs : List WalRecord} {r : WalRecord} (h : r ∈ rs) :
    encode crc r <:+: encodeAll crc rs := by
  obtain ⟨as, bs, rfl⟩ := List.append_of_mem h
  exact ⟨encodeAll crc as, encodeAll crc bs, by simp [encodeAll]⟩

theorem View.present {v : View} {r : WalRecord} (h : r ∈ v.records) : Present E (v.files E.crc32c) r := by
  rcases List.mem_append.mp h with h | h
  · obtain ⟨s, hs, hr⟩ := List.mem_flatMap.mp h
    exact Or.inr ⟨(s.1, encodeAll E.crc32c s.2), List.mem_map.mpr ⟨s, hs, rfl⟩, encode_of_mem _ hr⟩
  · exact Or.inl (encode_of_mem _ h)

/-- A run that spares the unflushed records keeps them and adds its own. -/
theorem unflushed_run {ckpt : UInt64} {v : View} {ops : List WalOp}
    (h : Along (View.step E) (View.Spares E ckpt) v ops) :
    (run (View.step E) v ops).unflushed ckpt =
      (v.records ++ appended ops).filter fun r => ckpt < r.seq := by
  have := Run.run_inv (View.step E)
    (I := fun h' v' => v'.unflushed ckpt = (v.records ++ appended h').filter fun r => ckpt < r.seq)
    (C := View.Spares E ckpt) (fun h' v' op hi hc => by
      rw [View.unflushed_step hc, hi, appended_concat]
      simp only [List.filter_append, List.append_assoc])
    ops [] v (by simp [View.unflushed, appended]) h
  simpa using this

/-- **No unflushed record is lost** in a run all of whose rotations and
expiries meet flushed segments only: after each step, every record above the
checkpoint, logged before the run or in it, is in a segment file. -/
theorem unflushed_present (ckpt : UInt64) (v : View) (ops : List WalOp)
    (h : Along (View.step E) (View.Spares E ckpt) v ops) :
    ∀ pre, pre <+: ops → ∀ r ∈ v.records ++ appended pre, ckpt < r.seq →
      Present E (run (step E) (v.files E.crc32c) pre) r := by
  rintro pre ⟨post, rfl⟩ r hr hseq
  have hmem : r ∈ (run (View.step E) v pre).unflushed ckpt := by
    rw [unflushed_run (Run.along_append.mp h).1]
    exact List.mem_filter.mpr ⟨hr, by simpa using hseq⟩
  rw [← View.files_run]
  exact View.present (List.mem_filter.mp hmem).1

/-- Two puts, each of which fills a segment of 32 bytes. -/
def twoPuts (first second : UInt64) : List WalOp :=
  [.appendPut 1 7 [1] ⟨first, first⟩, .appendPut 2 8 [2] ⟨second, second⟩]

/-- A log with segments of 32 bytes, kept for 7 days. -/
def tinySegments : Env := ⟨crc32c, 32, 7 * 24 * 3600⟩

theorem unflushed_present_twoPuts :
    Present tinySegments (run (step tinySegments) WalDir.empty (twoPuts 100 101)) (putRecord 1 7 [1]) :=
  unflushed_present 0 View.empty (twoPuts 100 101) (by decide) _ (List.prefix_refl _)
    (putRecord 1 7 [1]) (by decide) (by decide)

/-- The second rotation of a second overwrites the segment of the first. -/
theorem unflushed_overwritten :
    putRecord 1 7 [1] ∈ appended (twoPuts 100 100) ∧ 0 < (putRecord 1 7 [1]).seq ∧
      ¬ Present tinySegments (run (step tinySegments) WalDir.empty (twoPuts 100 100)) (putRecord 1 7 [1]) :=
  ⟨by decide +kernel, by decide, by decide +kernel⟩

end Wal
end Lsm
end Amind
