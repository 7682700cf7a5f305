/-
# Bodies in chunks

`decodeChunked` takes the size of a chunk from the line in front of it, as far as it
reads as a number of base 16, and goes on behind the chunk. Of a body that is a row of
chunks it has what is in them (`decodeChunked_chunks`), and of a response with such a
body the end can be seen if no chunk has a line end and there is one
(`chunked_reply`).

A position behind a chunk is a sum of 64 bits, and a size may have a sign. So one can
lead back to its own line, and the loop does not end (`decodeChunked_ne_some`).
-/
import Amind.Provider.Responses

namespace Amind
namespace Provider
namespace HttpClient

open Amind.Core Amind.Auth Amind.Search Amind.Server

structure Chunk where
  /-- The line in front of it. -/
  size : Text
  data : Text

namespace Chunk

def bytes (c : Chunk) : Text := c.size ++ (CRLF ++ (c.data ++ CRLF))

/-- The line reads as the length of the chunk, which is not zero. -/
structure WellFormed (c : Chunk) : Prop where
  line : 0x0D ∉ c.size
  value : stoullHex c.size = some (UInt64.ofNat c.data.length)
  data : c.data ≠ []

theorem length_bytes (c : Chunk) : c.bytes.length = c.size.length + 2 + c.data.length + 2 := by
  have htwo : CRLF.length = 2 := rfl
  simp only [bytes, List.length_append, htwo]
  omega

theorem WellFormed.size_ne_nil {c : Chunk} (h : c.WellFormed) : c.size ≠ [] := by
  intro hnil
  have hvalue := h.value
  rw [hnil] at hvalue
  cases hvalue

end Chunk

/-- The row of chunks. -/
def row (cs : List Chunk) : Text := cs.flatMap Chunk.bytes

theorem row_cons (c : Chunk) (cs : List Chunk) : row (c :: cs) = c.bytes ++ row cs := List.flatMap_cons

/-! ### One after the other -/

section Decode

variable {data : Text} {pos fuel : ℕ}

/-- Once the loop ends, more fuel changes nothing. -/
theorem decodeFrom_mono {x : Text} : ∀ {fuel pos : ℕ} {result : Text}, decodeFrom data fuel pos result = some x →
    ∀ k, decodeFrom data (fuel + k) pos result = some x
  | 0, _, _, h, _ => by cases h
  | fuel + 1, pos, result, h, k => by
    rw [Nat.add_right_comm]
    rw [decodeFrom] at h ⊢
    split
    · next hle => rwa [if_pos hle] at h
    · next hle =>
      rw [if_neg hle] at h
      split <;> rename_i hfind <;> rw [hfind] at h
      · exact h
      · dsimp only at h
        split <;> rename_i hvalue <;> rw [hvalue] at h
        · exact h
        · dsimp only at h
          split
          · next hzero => rwa [if_pos hzero] at h
          · next hzero =>
            rw [if_neg hzero] at h
            dsimp only
            split
            · next hbehind => rwa [if_pos hbehind] at h
            · next hbehind =>
              rw [if_neg hbehind] at h
              exact decodeFrom_mono h k

/-- One time through the loop, where a size is read. -/
theorem decodeFrom_succ {line rest : Text} {chunkSize : UInt64} (hdrop : data.drop pos = line ++ (CRLF ++ rest))
    (hline : 0x0D ∉ line) (hvalue : stoullHex line = some chunkSize) (hne : chunkSize ≠ 0)
    (hin : (pos + line.length + 2 + chunkSize.toNat) % 2 ^ 64 ≤ data.length) (result : Text) :
    decodeFrom data (fuel + 1) pos result =
      decodeFrom data fuel ((pos + line.length + 2 + chunkSize.toNat + 2) % 2 ^ 64)
        (result ++ rest.take chunkSize.toNat) := by
  have hpos : ¬ data.length ≤ pos := by
    intro hle
    rw [List.drop_eq_nil_of_le hle] at hdrop
    exact List.append_ne_nil_of_right_ne_nil _ (List.cons_ne_nil _ _) hdrop.symm
  have hrest : data.drop (pos + line.length + 2) = rest := by
    have hlen : line.length + 2 = (line ++ CRLF).length := by
      rw [List.length_append]
      rfl
    rw [Nat.add_assoc, ← List.drop_drop, hdrop, ← List.append_assoc, hlen, List.drop_left]
  rw [decodeFrom, if_neg hpos, hdrop, RestServer.find_lineEnd hline rest]
  dsimp only
  rw [List.take_left, hvalue]
  dsimp only
  rw [if_neg hne, if_neg (Nat.not_lt.mpr hin), hrest]

/-- A chunk is read, and the position is behind it. -/
theorem decodeFrom_chunk (hshort : data.length < 2 ^ 63) {c : Chunk} (hc : c.WellFormed) {rest : Text}
    (hdrop : data.drop pos = c.bytes ++ rest) (result : Text) :
    decodeFrom data (fuel + 1) pos result = decodeFrom data fuel (pos + c.bytes.length) (result ++ c.data) := by
  have hlen := congrArg List.length hdrop
  rw [List.length_drop, List.length_append] at hlen
  have hbytes := c.length_bytes
  have hsize : (UInt64.ofNat c.data.length).toNat = c.data.length :=
    UInt64.toNat_ofNat_of_lt' (show _ < 2 ^ 64 by omega)
  have hzero : UInt64.ofNat c.data.length ≠ 0 := by
    intro h0
    rw [h0] at hsize
    exact hc.data (List.length_eq_zero_iff.mp hsize.symm)
  have hsplit : data.drop pos = c.size ++ (CRLF ++ (c.data ++ (CRLF ++ rest))) := by
    rw [hdrop, Chunk.bytes]
    simp only [List.append_assoc]
  rw [decodeFrom_succ hsplit hc.line hc.value hzero (by rw [hsize, Nat.mod_eq_of_lt] <;> omega), hsize, List.take_left,
    Nat.mod_eq_of_lt (by omega), hbytes]
  congr 1
  omega

theorem decodeFrom_row (hshort : data.length < 2 ^ 63) : ∀ {cs : List Chunk} {pos : ℕ} {rest : Text} (result : Text),
    (∀ c ∈ cs, c.WellFormed) → data.drop pos = row cs ++ rest →
    decodeFrom data (fuel + cs.length) pos result =
      decodeFrom data fuel (pos + (row cs).length) (result ++ cs.flatMap Chunk.data)
  | [], pos, rest, result, _, _ => by
    rw [List.flatMap_nil, List.append_nil]
    rfl
  | c :: cs, pos, rest, result, hcs, hdrop => by
    obtain ⟨hc, hcs⟩ := List.forall_mem_cons.mp hcs
    rw [row_cons, List.append_assoc] at hdrop
    have hnext : data.drop (pos + c.bytes.length) = row cs ++ rest := by
      rw [← List.drop_drop, hdrop, List.drop_left]
    rw [List.length_cons, ← Nat.add_assoc, decodeFrom_chunk hshort hc hdrop, decodeFrom_row hshort _ hcs hnext,
      row_cons,
      List.length_append, List.flatMap_cons, List.append_assoc, Nat.add_assoc]

/-- A size of zero ends it. -/
theorem decodeFrom_last {line rest : Text} (hdrop : data.drop pos = line ++ (CRLF ++ rest)) (hline : 0x0D ∉ line)
    (hvalue : stoullHex line = some 0) (result : Text) : decodeFrom data (fuel + 1) pos result = some result := by
  rw [decodeFrom, hdrop, RestServer.find_lineEnd hline rest]
  dsimp only
  rw [List.take_left, hvalue]
  dsimp only
  rw [if_pos rfl, ite_self]

end Decode

/-- **A row of chunks is decoded to what is in them**, whatever is behind the chunk of
size zero. -/
theorem decodeChunked_chunks {cs : List Chunk} (hcs : ∀ c ∈ cs, c.WellFormed) (last rest : Text)
    (hline : 0x0D ∉ last) (hlast : stoullHex last = some 0)
    (hshort : (row cs ++ (last ++ (CRLF ++ rest))).length < 2 ^ 63) {fuel : ℕ} (hfuel : cs.length < fuel) :
    decodeChunked fuel (row cs ++ (last ++ (CRLF ++ rest))) = some (cs.flatMap Chunk.data) := by
  obtain ⟨k, rfl⟩ : ∃ k, fuel = k + 1 + cs.length := ⟨fuel - 1 - cs.length, by omega⟩
  have hbehind : (row cs ++ (last ++ (CRLF ++ rest))).drop (0 + (row cs).length) = last ++ (CRLF ++ rest) := by
    rw [Nat.zero_add, List.drop_left]
  rw [decodeChunked, decodeFrom_row hshort [] hcs List.drop_zero, decodeFrom_last hbehind hline hlast, List.nil_append]

/-! ### A size that leads back -/

/-- **The loop need not end.** Behind a chunk, a size that with its line makes a whole
turn of 64 bits leads back to the line. -/
theorem decodeChunked_ne_some {cs : List Chunk} (hcs : ∀ c ∈ cs, c.WellFormed) (hne : cs ≠ []) (back rest : Text)
    (hline : 0x0D ∉ back) (hback : stoullHex back = some (0 - UInt64.ofNat (back.length + 4)))
    (hshort : (row cs ++ (back ++ (CRLF ++ rest))).length < 2 ^ 63) (fuel : ℕ) :
    decodeChunked fuel (row cs ++ (back ++ (CRLF ++ rest))) = none := by
  have hlen : (row cs ++ (back ++ (CRLF ++ rest))).length = (row cs).length + (back.length + (2 + rest.length)) := by
    simp only [List.length_append]
    rfl
  have hfront : 2 ≤ (row cs).length := by
    obtain ⟨c, cs, rfl⟩ := List.exists_cons_of_ne_nil hne
    have hbytes := c.length_bytes
    rw [row_cons, List.length_append]
    omega
  have hvalue : (0 - UInt64.ofNat (back.length + 4)).toNat = 2 ^ 64 - (back.length + 4) := by
    rw [UInt64.toNat_sub, UInt64.toNat_ofNat_of_lt' (show back.length + 4 < 2 ^ 64 by omega)]
    simp only [UInt64.toNat_zero]
    omega
  have hzero : (0 - UInt64.ofNat (back.length + 4) : UInt64) ≠ 0 := by
    intro h0
    rw [h0] at hvalue
    simp only [UInt64.toNat_zero] at hvalue
    omega
  have hdrop : (row cs ++ (back ++ (CRLF ++ rest))).drop (row cs).length = back ++ (CRLF ++ rest) := List.drop_left
  -- from the line on the loop comes back to it
  have hturn : ∀ (n : ℕ) (result : Text),
      decodeFrom (row cs ++ (back ++ (CRLF ++ rest))) n (row cs).length result = none := by
    intro n
    induction n with
    | zero => exact fun _ => rfl
    | succ n ih =>
      intro result
      rw [decodeFrom_succ hdrop hline hback hzero (by rw [hvalue]; omega), hvalue,
        show ((row cs).length + back.length + 2 + (2 ^ 64 - (back.length + 4)) + 2) % 2 ^ 64 = (row cs).length by omega]
      exact ih _
  cases hend : decodeChunked fuel (row cs ++ (back ++ (CRLF ++ rest))) with
  | none => rfl
  | some x =>
    have hmore := decodeFrom_mono hend cs.length
    rw [decodeFrom_row hshort [] hcs List.drop_zero, Nat.zero_add, hturn] at hmore
    cases hmore

/-- A chunk of one byte, and a size of which the sign makes it one of 64 bits. -/
theorem decodeChunked_negative : decodeChunked (2 ^ 64) (Utf8.bytes "1\r\na\r\n-6\r\nb") = none := by
  have hchunk : ∀ c ∈ [(⟨Utf8.bytes "1", Utf8.bytes "a"⟩ : Chunk)], c.WellFormed :=
    List.forall_mem_singleton.mpr ⟨by decide, by decide +kernel, by decide⟩
  exact decodeChunked_ne_some hchunk (List.cons_ne_nil _ _) (Utf8.bytes "-6") (Utf8.bytes "b") (by decide)
    (by decide +kernel) (by decide) (2 ^ 64)

/-! ### The end of the chunks -/

/-- The last chunk, without a trailer. -/
def lastBytes : Text := Utf8.bytes "0\r\n\r\n"

theorem lastChunk_ne_nil : lastChunk ≠ [] := List.cons_ne_nil _ _

/-- The end of the chunks is not in a text without line ends. -/
theorem find_lastChunk_append {front : Text} (h : 0x0D ∉ front) (s : Text) :
    find lastChunk (front ++ s) = (find lastChunk s).map (· + front.length) := by
  refine find_append (fun b hb heq => ?_) lastChunk_ne_nil
  have hreturn : b = 0x0D := (Option.some.inj heq).symm
  exact h (hreturn ▸ hb)

/-- A line end is passed over where no `0` is behind it with an empty line. -/
theorem find_lastChunk_CRLF {s : Text} (h : ¬ Utf8.bytes "0\r\n\r\n" <+: s) :
    find lastChunk (CRLF ++ s) = (find lastChunk s).map (· + 2) := by
  have hstart : ¬ lastChunk <+: 0x0D :: 0x0A :: s := by
    intro hp
    exact h (List.cons_prefix_cons.mp (List.cons_prefix_cons.mp hp).2).2
  have hfeed : lastChunk.head? ≠ some 0x0A := by decide
  have hnext : ¬ lastChunk <+: 0x0A :: s := by
    intro hp
    obtain ⟨rest, hrest⟩ := hp
    exact absurd (List.cons.inj hrest).1 (by decide)
  change find lastChunk (0x0D :: 0x0A :: s) = _
  rw [find, if_neg hstart, find, if_neg hnext, Option.map_map]
  rfl

/-- What starts with a `0` in a line of its own. -/
theorem zero_of_prefix {line s t : Text} (hline : 0x0D ∉ line)
    (h : Utf8.bytes "0" ++ CRLF ++ t <+: line ++ (CRLF ++ s)) :
    line = Utf8.bytes "0" ∧ t <+: s := by
  have hzero : find CRLF (Utf8.bytes "0" ++ CRLF ++ t) = some 1 := by
    rw [List.append_assoc]
    have hdigit : 0x0D ∉ Utf8.bytes "0" := by decide
    exact RestServer.find_lineEnd hdigit t
  have hlong := find_longer CRLF_ne_nil hzero h
  rw [RestServer.find_lineEnd hline s] at hlong
  have hlen : line.length = (Utf8.bytes "0").length := Option.some.inj hlong
  obtain ⟨rest, hrest⟩ := h
  rw [List.append_assoc, List.append_assoc] at hrest
  obtain ⟨hfront, hback⟩ := List.append_inj hrest hlen.symm
  exact ⟨hfront.symm, rest, List.append_cancel_left hback⟩

namespace Chunk

/-- A chunk whose line end does not come before its end. -/
structure Plain (c : Chunk) : Prop extends c.WellFormed where
  noReturn : 0x0D ∉ c.data

/-- What is behind a chunk does not start with a line end. -/
theorem head?_row {cs : List Chunk} (hcs : ∀ c ∈ cs, c.Plain) : (row cs ++ lastBytes).head? ≠ some 0x0D := by
  cases cs with
  | nil => decide
  | cons c cs =>
    obtain ⟨hc, -⟩ := List.forall_mem_cons.mp hcs
    obtain ⟨b, size, hsize⟩ := List.exists_cons_of_ne_nil hc.size_ne_nil
    rw [row_cons, Chunk.bytes, hsize]
    intro heq
    exact hc.line (hsize ▸ Option.some.inj heq ▸ List.mem_cons_self)

/-- A chunk is passed over, up to the line end behind it. -/
theorem Plain.find_lastChunk {c : Chunk} (h : c.Plain) {s : Text} (hs : s.head? ≠ some 0x0D) :
    find lastChunk (c.bytes ++ s) = (find lastChunk (CRLF ++ s)).map (· + (c.bytes.length - 2)) := by
  have hdata : ¬ Utf8.bytes "0\r\n\r\n" <+: c.data ++ (CRLF ++ s) := by
    intro hp
    obtain ⟨-, hrest⟩ := zero_of_prefix h.noReturn (t := CRLF) hp
    obtain ⟨rest, rfl⟩ := hrest
    exact hs rfl
  have hsplit : c.bytes ++ s = c.size ++ (CRLF ++ (c.data ++ (CRLF ++ s))) := by
    unfold Chunk.bytes
    simp only [List.append_assoc]
  have hlen := c.length_bytes
  rw [hsplit, find_lastChunk_append h.line, find_lastChunk_CRLF hdata, find_lastChunk_append h.noReturn, Option.map_map,
    Option.map_map]
  congr 1
  funext i
  simp only [Function.comp_apply]
  omega

/-- The line of a chunk is not that of the last one. -/
theorem Plain.not_last {c : Chunk} (h : c.Plain) (s : Text) : ¬ Utf8.bytes "0\r\n\r\n" <+: c.bytes ++ s := by
  intro hp
  have hsplit : c.bytes ++ s = c.size ++ (CRLF ++ (c.data ++ (CRLF ++ s))) := by
    unfold Chunk.bytes
    simp only [List.append_assoc]
  rw [hsplit] at hp
  obtain ⟨-, hdata⟩ := zero_of_prefix h.line (t := CRLF) hp
  obtain ⟨b, data, hb⟩ := List.exists_cons_of_ne_nil h.data
  rw [hb] at hdata
  obtain ⟨rest, hrest⟩ := hdata
  exact h.noReturn (hb ▸ (List.cons.inj hrest).1 ▸ List.mem_cons_self)

end Chunk

/-- Behind the line end of a chunk the end of the chunks is behind those that are left. -/
theorem find_lastChunk_row : ∀ {cs : List Chunk}, (∀ c ∈ cs, c.Plain) →
    find lastChunk (CRLF ++ (row cs ++ lastBytes)) = some (row cs).length
  | [], _ => by decide
  | c :: cs, hcs => by
    obtain ⟨hc, hcs⟩ := List.forall_mem_cons.mp hcs
    have hlen := c.length_bytes
    rw [row_cons, List.append_assoc, find_lastChunk_CRLF (hc.not_last _), hc.find_lastChunk (Chunk.head?_row hcs),
      find_lastChunk_row hcs, List.length_append]
    simp only [Option.map_some]
    congr 1
    omega

theorem length_lastBytes : lastBytes.length = 5 := by decide

/-- The end of the chunks is first at the end of the body if there is a chunk, and nowhere
if there is none. -/
theorem find_lastChunk_iff {cs : List Chunk} (hcs : ∀ c ∈ cs, c.Plain) :
    (∃ i, find lastChunk (row cs ++ lastBytes) = some i ∧ i + 7 = (row cs ++ lastBytes).length) ↔ cs ≠ [] := by
  cases cs with
  | nil =>
    have hnone : find lastChunk (row [] ++ lastBytes) = none := by decide
    rw [hnone]
    simp
  | cons c cs =>
    obtain ⟨hc, hcs⟩ := List.forall_mem_cons.mp hcs
    have hlen := c.length_bytes
    refine iff_of_true ⟨(row cs).length + (c.bytes.length - 2), ?_, ?_⟩ (List.cons_ne_nil _ _)
    · rw [row_cons, List.append_assoc, hc.find_lastChunk (Chunk.head?_row hcs), find_lastChunk_row hcs]
      rfl
    · rw [row_cons, List.append_assoc, List.length_append, List.length_append, length_lastBytes]
      omega

/-- **A response in chunks** without line ends in them, as chunks of one JSON text are: it
says to the client what is in them. Its end can be seen if and only if there is a
chunk. -/
theorem chunked_reply {r : Reply} (h : r.WellFormed) (hc : r.Chunked) {cs : List Chunk} (hcs : ∀ c ∈ cs, c.Plain)
    (hbody : r.body = row cs ++ lastBytes) (hshort : r.body.length < 2 ^ 63) {fuel : ℕ} (hfuel : cs.length < fuel) :
    (r.Detectable ↔ cs ≠ []) ∧
      parseHttpResponse fuel r.bytes = some (.ok ⟨r.status, cs.flatMap Chunk.data⟩) := by
  constructor
  · unfold Reply.Detectable
    rw [if_pos hc, hbody]
    exact find_lastChunk_iff hcs
  · rw [h.parse_bytes, if_pos hc, hbody]
    rw [hbody] at hshort
    have hdecode := decodeChunked_chunks (fun c hm => (hcs c hm).toWellFormed) (Utf8.bytes "0") CRLF
      (by decide) (by decide +kernel) hshort hfuel
    rw [show lastBytes = Utf8.bytes "0" ++ (CRLF ++ CRLF) by decide, hdecode]
    rfl

/-- What a model replies in two chunks. -/
def twoChunks : Reply where
  version := Utf8.bytes "HTTP/1.1"
  status := 200
  reason := Utf8.bytes " OK"
  fields := [transferChunked]
  body := Utf8.bytes "3\r\n\x7b\"a\r\n4\r\n\":1\x7d\r\n0\r\n\r\n"

theorem wellFormed_twoChunks : twoChunks.WellFormed :=
  ⟨by decide, by decide, by decide, by decide, by decide, by decide⟩

theorem parse_twoChunks : twoChunks.Detectable ∧
    parseHttpResponse 3 twoChunks.bytes = some (.ok ⟨200, Utf8.bytes "\x7b\"a\":1\x7d"⟩) := by
  have hplain : ∀ c ∈ [(⟨Utf8.bytes "3", Utf8.bytes "\x7b\"a"⟩ : Chunk), ⟨Utf8.bytes "4", Utf8.bytes "\":1\x7d"⟩],
      c.Plain :=
    List.forall_mem_cons.mpr ⟨⟨⟨by decide, by decide +kernel, by decide⟩, by decide⟩,
      List.forall_mem_singleton.mpr ⟨⟨by decide, by decide +kernel, by decide⟩, by decide⟩⟩
  obtain ⟨hends, hsays⟩ := chunked_reply wellFormed_twoChunks (by decide +kernel) hplain (by decide +kernel) (by decide)
    (show 2 < 3 by decide)
  exact ⟨hends.mpr (List.cons_ne_nil _ _), hsays⟩

end HttpClient
end Provider
end Amind
