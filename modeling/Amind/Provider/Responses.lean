/-
# Responses on a connection that is kept

The client waits for each response before it sends the next request. Where the peer
keeps the connection, a response has to say itself where it ends: the client takes a
length of zero for none, and looks for the end of the chunks behind the first of them.

`exchanges_iff` says which responses are read one by one however they arrive, those
that are `Detectable`. What is read says to the client what the peer said
(`parse_bytes`).
-/
import Amind.Provider.HttpClient

namespace Amind
namespace Provider
namespace HttpClient

open Amind.Core Amind.Auth Amind.Search Amind.Server

/-! ### Replies -/

/-- What a peer replies. -/
structure Reply where
  version : Text
  status : ℕ
  /-- What is behind the status in its line. -/
  reason : Text
  fields : List Text
  body : Text

namespace Reply

def line (r : Reply) : Text := r.version ++ 0x20 :: (Json.dumpNat r.status ++ r.reason)

def head (r : Reply) : Text := r.line ++ r.fields.flatMap (CRLF ++ ·)

def bytes (r : Reply) : Text := r.head ++ blankLine ++ r.body

/-- The status has three digits, and every line is one. -/
structure WellFormed (r : Reply) : Prop where
  blank : 0x20 ∉ r.version
  version : 0x0D ∉ r.version
  lower : 100 ≤ r.status
  upper : r.status < 1000
  reason : 0x0D ∉ r.reason
  fields : ∀ f ∈ r.fields, f ≠ [] ∧ 0x0D ∉ f

/-- The body comes in chunks. -/
def Chunked (r : Reply) : Prop := (find transferChunked r.head).isSome = true

instance (r : Reply) : Decidable r.Chunked := inferInstanceAs (Decidable (_ = _))

/-- The end of the response can be seen: the end of the chunks is first at the end of the
body; or the announced length is that of the body, which is not empty. -/
def Detectable (r : Reply) : Prop :=
  if r.Chunked then ∃ i, find lastChunk r.body = some i ∧ i + 7 = r.body.length
  else announced r.head = r.body.length ∧ r.body ≠ []

variable {r : Reply}

theorem line_ne_nil (r : Reply) : r.line ≠ [] := List.append_ne_nil_of_right_ne_nil _ (List.cons_ne_nil _ _)

theorem bytes_ne_nil (r : Reply) : r.bytes ≠ [] :=
  List.append_ne_nil_of_left_ne_nil (List.append_ne_nil_of_right_ne_nil _ blankLine_ne_nil) _

theorem WellFormed.line (h : r.WellFormed) : 0x0D ∉ r.line := by
  have hblank : (0x0D : UInt8) ≠ 0x20 := by decide
  simp [Reply.line, h.version, h.reason, hblank, Proxy.no_return_dumpNat]

theorem WellFormed.find_blankLine (h : r.WellFormed) (body : Text) :
    find blankLine (r.head ++ blankLine ++ body) = some r.head.length :=
  (isHead_lines r.line_ne_nil h.line h.fields).find body

end Reply

/-! ### The end of a response -/

section Ends

variable {head : Text}

theorem whole_append (hend : ∀ body, find blankLine (head ++ blankLine ++ body) = some head.length) (body : Text) :
    whole (head ++ blankLine ++ body) = wholeBody head body := by
  have hlen : head.length + 4 = (head ++ blankLine).length := by
    rw [List.length_append]
    rfl
  rw [whole, hend]
  dsimp only
  rw [hlen, List.drop_left, List.append_assoc, List.take_left]

/-- A start that is not behind the head is not whole. -/
theorem not_whole_of_short (hend : ∀ body, find blankLine (head ++ blankLine ++ body) = some head.length)
    {p body : Text} (hp : p <+: head ++ blankLine ++ body) (hshort : p.length < head.length + 4) : whole p = false := by
  unfold whole
  cases h : find blankLine p with
  | none => rfl
  | some i =>
    have hlong := find_longer blankLine_ne_nil h hp
    rw [hend] at hlong
    have hlen := length_of_find blankLine_ne_nil h
    rw [← Option.some.inj hlong, show blankLine.length = 4 from rfl] at hlen
    omega

/-- The response is framed as its body is. -/
theorem framed_whole_iff (hend : ∀ body, find blankLine (head ++ blankLine ++ body) = some head.length) {body : Text} :
    Arrival.Framed whole (head ++ blankLine ++ body) ↔
      wholeBody head body = true ∧ ∀ b, b <+: body → b ≠ body → wholeBody head b = false := by
  constructor
  · intro h
    refine ⟨whole_append hend body ▸ h.whole, fun b hb hne => ?_⟩
    rw [← whole_append hend]
    refine h.start _ ((List.prefix_append_right_inj _).mpr hb) ?_ fun heq => hne (List.append_cancel_left heq)
    exact List.append_ne_nil_of_left_ne_nil (List.append_ne_nil_of_right_ne_nil _ blankLine_ne_nil) _
  · rintro ⟨hbody, hstart⟩
    refine ⟨(whole_append hend body).trans hbody, fun p hp _ hne => ?_⟩
    rcases Nat.lt_or_ge p.length (head.length + 4) with hshort | hlong
    · exact not_whole_of_short hend hp hshort
    · have hhead : head ++ blankLine <+: p := by
        refine List.prefix_of_prefix_length_le (List.prefix_append _ _) hp ?_
        rw [List.length_append]
        exact hlong
      obtain ⟨b, rfl⟩ := hhead
      rw [whole_append hend]
      exact hstart b ((List.prefix_append_right_inj _).mp hp) fun heq => hne (heq ▸ rfl)

/-- The end of the chunks is seen at the end of the body if it is there first. -/
theorem framed_chunked_iff (hc : (find transferChunked head).isSome = true) {body : Text} :
    (wholeBody head body = true ∧ ∀ b, b <+: body → b ≠ body → wholeBody head b = false) ↔
      ∃ i, find lastChunk body = some i ∧ i + 7 = body.length := by
  have hne : lastChunk ≠ [] := by decide
  have hseven : lastChunk.length = 7 := by decide
  have hwhole : ∀ b, wholeBody head b = (find lastChunk b).isSome := fun b => if_pos hc
  simp only [hwhole]
  constructor
  · rintro ⟨hbody, hstart⟩
    obtain ⟨i, hi⟩ := Option.isSome_iff_exists.mp hbody
    have hlen := length_of_find hne hi
    rw [hseven] at hlen
    refine ⟨i, hi, ?_⟩
    by_contra hshort
    have htake := find_take hne hi (k := i + 7) (by rw [hseven])
    have hproper : body.take (i + 7) ≠ body := by
      rw [ne_eq, List.take_eq_self_iff]
      omega
    have hfalse := hstart _ (List.take_prefix _ _) hproper
    rw [htake] at hfalse
    cases hfalse
  · rintro ⟨i, hi, hlen⟩
    refine ⟨by rw [hi]; rfl, fun b hb hproper => ?_⟩
    rw [← Bool.not_eq_true]
    intro hsome
    obtain ⟨j, hj⟩ := Option.isSome_iff_exists.mp hsome
    have hlong := find_longer hne hj hb
    rw [hi] at hlong
    have hend := length_of_find hne hj
    rw [hseven, ← Option.some.inj hlong, hlen] at hend
    exact hproper (hb.eq_of_length_le hend)

/-- The end of a body of a length is seen if the length is announced, and is not zero. -/
theorem framed_length_iff (hc : ¬ (find transferChunked head).isSome = true) {body : Text} :
    (wholeBody head body = true ∧ ∀ b, b <+: body → b ≠ body → wholeBody head b = false) ↔
      announced head = body.length ∧ body ≠ [] := by
  have hwhole : ∀ b, wholeBody head b = true ↔ 0 < announced head ∧ announced head ≤ b.length := by
    intro b
    rw [wholeBody, if_neg hc, Bool.and_eq_true, decide_eq_true_iff, decide_eq_true_iff]
  constructor
  · rintro ⟨hbody, hstart⟩
    obtain ⟨hpos, hle⟩ := (hwhole body).mp hbody
    have heq : announced head = body.length := by
      by_contra hne
      have hproper : body.take (announced head) ≠ body := by
        rw [ne_eq, List.take_eq_self_iff]
        omega
      have hfalse := hstart _ (List.take_prefix _ _) hproper
      have htrue := (hwhole (body.take (announced head))).mpr ⟨hpos, by rw [List.length_take]; omega⟩
      rw [htrue] at hfalse
      cases hfalse
    exact ⟨heq, List.ne_nil_of_length_pos (heq ▸ hpos)⟩
  · rintro ⟨heq, hne⟩
    have hpos := List.length_pos_of_ne_nil hne
    refine ⟨(hwhole body).mpr ⟨heq ▸ hpos, heq.le⟩, fun b hb hproper => ?_⟩
    rw [← Bool.not_eq_true, hwhole]
    rintro ⟨-, hle⟩
    exact hproper (hb.eq_of_length_le (heq ▸ hle))

end Ends

theorem Reply.WellFormed.framed_iff {r : Reply} (h : r.WellFormed) :
    Arrival.Framed whole r.bytes ↔ r.Detectable := by
  unfold Reply.bytes Reply.Detectable
  rw [framed_whole_iff h.find_blankLine]
  by_cases hc : r.Chunked
  · rw [if_pos hc]
    exact framed_chunked_iff hc
  · rw [if_neg hc]
    exact framed_length_iff hc

/-! ### One after the other -/

/-- What the client reads on a connection that is kept, a list of pieces arriving for
each of its requests. -/
def exchanges : List (List Text) → List Text → List Text
  | [], _ => []
  | pieces :: more, pending =>
    match readHttpResponse true (pending ++ pieces) {} with
    | .ended responseData rest => responseData :: exchanges more rest
    -- the client waits for more
    | .all _ => []

theorem exchanges_eq : ∀ (arrivals : List (List Text)) (pending : List Text),
    exchanges arrivals pending = Arrival.converse whole arrivals pending
  | [], _ => rfl
  | pieces :: more, pending => by
    rw [exchanges, Arrival.converse, ← Reading.of_nil, readHttpResponse_eq]
    cases Arrival.readUntil whole (pending ++ pieces) [] with
    | none => rfl
    | some x => exact congrArg (x.1 :: ·) (exchanges_eq more x.2)

/-- **Which responses are read one by one**: those that can be seen to end, of any row of
responses and however they arrive. After any other one some arrival leaves the client
waiting, or with a part of it before the next. -/
theorem exchanges_iff (replies : List Reply) (h : ∀ r ∈ replies, r.WellFormed) :
    (∀ arrivals, Arrival.Cuts arrivals (replies.map Reply.bytes) →
        exchanges arrivals [] = replies.map Reply.bytes) ↔
      ∀ r ∈ replies, r.Detectable := by
  have hne : ∀ m ∈ replies.map Reply.bytes, m ≠ [] := by
    intro m hm
    obtain ⟨r, -, rfl⟩ := List.mem_map.mp hm
    exact r.bytes_ne_nil
  simp only [exchanges_eq]
  rw [Arrival.converse_iff hne, List.forall_mem_map]
  exact forall₂_congr fun r hr => (h r hr).framed_iff

/-- A reply that announces its length. -/
def pong : Reply where
  version := Utf8.bytes "HTTP/1.1"
  status := 200
  reason := Utf8.bytes " OK"
  fields := [Utf8.bytes "Content-Length: 4"]
  body := Utf8.bytes "pong"

theorem wellFormed_pong : pong.WellFormed :=
  ⟨by decide, by decide, by decide, by decide, by decide, by decide⟩

/-- Two of them, the first in two pieces. -/
theorem exchanges_pong :
    exchanges [[pong.bytes.take 20, pong.bytes.drop 20], [pong.bytes]] [] = [pong.bytes, pong.bytes] := by
  have hcut : Arrival.Cut [pong.bytes.take 20, pong.bytes.drop 20] pong.bytes := ⟨by decide, by decide⟩
  have hone : Arrival.Cut [pong.bytes] pong.bytes := Arrival.cut_one pong.bytes_ne_nil
  exact (exchanges_iff [pong, pong] (by simp [wellFormed_pong])).mpr
    (by
      have hends : pong.Detectable := by
        unfold Reply.Detectable
        rw [if_neg (by decide +kernel)]
        decide +kernel
      simp [hends])
    _ (.cons hcut (.cons hone .nil))

/-! ### What is said -/

/-- The chunks are decoded if the head says so. -/
theorem find_transferChunked {head : Text} (body : Text) :
    (∃ tePos, find transferChunked (head ++ blankLine ++ body) = some tePos ∧ tePos < head.length) ↔
      (find transferChunked head).isSome = true := by
  have hne : transferChunked ≠ [] := by decide
  constructor
  · rintro ⟨tePos, hfind, hlt⟩
    rw [Option.isSome_iff_ne_none]
    intro hnone
    have hreturn : (0x0D : UInt8) ∉ transferChunked := by decide
    have hsplit : head ++ blankLine ++ body = head ++ 0x0D :: (0x0A :: (CRLF ++ body)) := by simp [blankLine, CRLF]
    rw [hsplit, find_append_cons hreturn hne _ hnone] at hfind
    obtain ⟨j, -, hj⟩ := Option.map_eq_some_iff.mp hfind
    omega
  · intro hsome
    obtain ⟨i, hi⟩ := Option.isSome_iff_exists.mp hsome
    have hlen := length_of_find hne hi
    refine ⟨i, find_longer hne hi ?_, Nat.lt_of_lt_of_le (Nat.lt_add_of_pos_right (by decide)) hlen⟩
    exact (List.prefix_append _ _).trans (List.prefix_append _ _)

theorem Reply.WellFormed.bodyOf {r : Reply} (h : r.WellFormed) (fuel : ℕ) :
    bodyOf fuel r.bytes = if r.Chunked then decodeChunked fuel r.body else some r.body := by
  have hlen : r.head.length + 4 = (r.head ++ blankLine).length := by
    rw [List.length_append]
    rfl
  have hbody : r.bytes.drop (r.head.length + 4) = r.body := by rw [hlen, Reply.bytes, List.drop_left]
  have hend : find blankLine r.bytes = some r.head.length := h.find_blankLine r.body
  unfold HttpClient.bodyOf
  rw [hend]
  dsimp only
  rw [hbody]
  by_cases hc : r.Chunked
  · obtain ⟨tePos, hfind, hlt⟩ := (find_transferChunked r.body).mpr hc
    rw [show find transferChunked r.bytes = some tePos from hfind, if_pos hc]
    exact if_pos hlt
  · rw [if_neg hc]
    cases hfind : find transferChunked r.bytes with
    | none => rfl
    | some tePos => exact if_neg fun hlt => hc ((find_transferChunked r.body).mp ⟨tePos, hfind, hlt⟩)

theorem Reply.WellFormed.statusCode {r : Reply} (h : r.WellFormed) : statusCode r.bytes = r.status := by
  obtain ⟨rest, hrest⟩ : ∃ rest, r.bytes = r.line ++ (CRLF ++ rest) := by
    unfold Reply.bytes Reply.head
    cases r.fields with
    | nil => exact ⟨CRLF ++ r.body, by simp [blankLine]⟩
    | cons f fs => exact ⟨f ++ fs.flatMap (CRLF ++ ·) ++ blankLine ++ r.body, by simp⟩
  have hsp : find [0x20] r.line = some r.version.length := find_singleton h.blank _
  have hdigits : (r.line.drop (r.version.length + 1)).take 3 = Json.dumpNat r.status := by
    have hdrop : r.line.drop (r.version.length + 1) = Json.dumpNat r.status ++ r.reason := by
      unfold Reply.line
      rw [List.drop_append, List.drop_eq_nil_of_le (Nat.le_succ _), Nat.add_sub_cancel_left]
      rfl
    rw [hdrop, ← Proxy.length_dumpNat h.lower h.upper, List.take_left]
  have hread : Amind.Config.stoi (Json.dumpNat r.status) = some (r.status : ℤ) :=
    Proxy.stoi_dumpNat (by have := h.upper; omega)
  unfold HttpClient.statusCode
  rw [hrest, RestServer.find_lineEnd h.line rest]
  dsimp only
  rw [List.take_left, hsp]
  dsimp only
  rw [hdigits, hread]
  rfl

/-- What the client takes a response to say: its status, and its body, decoded if the
decoding ends. -/
theorem Reply.WellFormed.parse_bytes {r : Reply} (h : r.WellFormed) (fuel : ℕ) :
    parseHttpResponse fuel r.bytes =
      (if r.Chunked then decodeChunked fuel r.body else some r.body).map fun body => .ok ⟨r.status, body⟩ := by
  rw [parseHttpResponse, if_neg r.bytes_ne_nil, h.bodyOf, h.statusCode]

end HttpClient
end Provider
end Amind
