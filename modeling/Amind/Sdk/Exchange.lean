/-
# An exchange with the REST port

The SDK sends each of its calls with the HTTP client, and reads what the REST port
answers. Whatever the pieces in which the request and the response come, the handler is
given the method, the path and the body that were sent, and the client has the status
and the body that were answered (`exchange_eq`).
-/
import Amind.Provider.Requests
import Amind.Provider.Responses

namespace Amind
namespace Sdk

open Amind.Core Amind.Auth Amind.Search Amind.Server
open Amind.Provider.HttpClient

/-! ### What the REST port answers -/

/-- The response of the REST port, as the client looks at it. -/
def restReply (a : Proxy.Answer) : Reply where
  version := Utf8.bytes "HTTP/1.1"
  status := a.status
  reason := 0x20 :: Utf8.bytes (if a.status = 200 then "OK" else "Error")
  fields := [Utf8.bytes "Content-Type: application/json", lengthName ++ Json.dumpNat a.body.length,
    Utf8.bytes "Connection: close"]
  body := a.body

theorem bytes_restReply (a : Proxy.Answer) : (restReply a).bytes = Proxy.jsonResponse a.status a.body := by
  have hname : lengthName = Utf8.bytes "Content-Length:" ++ [0x20] := by decide
  rw [Proxy.jsonResponse_eq]
  unfold Reply.bytes Reply.head Reply.line restReply Proxy.answerHead Proxy.statusLine
  rw [hname]
  simp [List.append_assoc]

theorem lengthName_ne_nil : lengthName ≠ [] := List.cons_ne_nil _ _

theorem no_return_lengthLine (n : ℕ) : 0x0D ∉ lengthName ++ Json.dumpNat n := by
  rw [List.mem_append]
  exact not_or.mpr ⟨by decide, Proxy.no_return_dumpNat n⟩

theorem wellFormed_restReply (a : Proxy.Answer) : (restReply a).WellFormed where
  blank := show 0x20 ∉ Utf8.bytes "HTTP/1.1" by decide
  version := show 0x0D ∉ Utf8.bytes "HTTP/1.1" by decide
  lower := a.lower
  upper := a.upper
  reason := by
    unfold restReply
    dsimp only
    split <;> decide +kernel
  fields := by
    unfold restReply
    simp only [List.mem_cons, List.not_mem_nil, or_false, forall_eq_or_imp, forall_eq]
    exact ⟨by decide, ⟨List.cons_ne_nil _ _, no_return_lengthLine _⟩, by decide⟩

/-- A letter that is in no number is not in the line of the status. -/
theorem not_mem_line {b : UInt8} (hdigit : Json.isDigit b = false) (hversion : b ∉ Utf8.bytes "HTTP/1.1 OK Error")
    (a : Proxy.Answer) : b ∉ (restReply a).line := by
  have hnumber : b ∉ Json.dumpNat a.status := fun hb => by
    rw [Json.dumpNat_digits _ _ hb] at hdigit
    cases hdigit
  have hsub : ∀ c ∈ Utf8.bytes "HTTP/1.1" ++ 0x20 :: (0x20 :: Utf8.bytes (if a.status = 200 then "OK" else "Error")),
      c ∈ Utf8.bytes "HTTP/1.1 OK Error" := by
    split <;> decide +kernel
  intro hb
  refine hversion (hsub b ?_)
  have hline : b ∈ Utf8.bytes "HTTP/1.1" ++ 0x20 ::
      (Json.dumpNat a.status ++ 0x20 :: Utf8.bytes (if a.status = 200 then "OK" else "Error")) := hb
  simp only [List.mem_append, List.mem_cons, hnumber, false_or] at hline ⊢
  exact hline

theorem not_chunked_restReply (a : Proxy.Answer) : ¬ (restReply a).Chunked := by
  have hnone : find transferChunked ((restReply a).head.map id) = none := by
    refine find_lines_none id_lineEnd (by decide) (by decide) (List.cons_ne_nil _ _) ?_ ?_
    · rw [List.map_id]
      exact find_of_not_mem (b := 0x66) (by decide) (not_mem_line (by decide) (by decide) a)
    · unfold restReply
      simp only [List.mem_cons, List.not_mem_nil, or_false, forall_eq_or_imp, forall_eq, List.map_id]
      have hlength : (0x66 : UInt8) ∉ lengthName ++ Json.dumpNat a.body.length := by
        rw [List.mem_append]
        exact not_or.mpr ⟨by decide, fun hb => absurd (Json.dumpNat_digits _ _ hb) (by decide)⟩
      exact ⟨by decide, find_of_not_mem (b := 0x66) (by decide) hlength, by decide⟩
  rw [List.map_id] at hnone
  unfold Reply.Chunked
  rw [hnone]
  exact Bool.false_ne_true

/-- The length that is announced is that of the body. -/
theorem announced_restReply (a : Proxy.Answer) : announced (restReply a).head = a.body.length := by
  have hline : find lengthName ((restReply a).line.map id) = none := by
    rw [List.map_id]
    exact find_of_not_mem (b := 0x67) (by decide) (not_mem_line (by decide) (by decide) a)
  have htype : ∀ l ∈ [Utf8.bytes "Content-Type: application/json"], find lengthName (l.map id) = none := by decide
  have hnamed : lengthName <+: (lengthName ++ Json.dumpNat a.body.length).map id := by
    rw [List.map_id]
    exact List.prefix_append _ _
  obtain ⟨pos, hfind, -, hdrop⟩ := find_lines id_lineEnd (by decide) (by decide) lengthName_ne_nil hnamed
    [Utf8.bytes "Connection: close"] hline htype
  have hhead : (restReply a).line ++ ([Utf8.bytes "Content-Type: application/json"] ++
      (lengthName ++ Json.dumpNat a.body.length) :: [Utf8.bytes "Connection: close"]).flatMap (CRLF ++ ·) =
      (restReply a).head := rfl
  rw [hhead] at hfind hdrop
  rw [List.map_id] at hfind
  have hvalue : (restReply a).head.drop (pos + 16) =
      Json.dumpNat a.body.length ++ (CRLF ++ (Utf8.bytes "Connection: close" ++ [])) := by
    rw [← List.drop_drop, hdrop, List.append_assoc]
    exact List.drop_left' (by decide)
  have hend : upTo CRLF ((restReply a).head.drop (pos + 16)) = Json.dumpNat a.body.length := by
    rw [hvalue, upTo_eq_take (RestServer.find_lineEnd (Proxy.no_return_dumpNat _) _), List.take_left]
  have hshort : a.body.length < 2 ^ 64 := by
    have hlong := a.short
    rw [Proxy.jsonResponse_eq, List.length_append] at hlong
    omega
  have hnat : (UInt64.ofNat a.body.length).toNat = a.body.length := UInt64.toNat_ofNat_of_lt' hshort
  have hread : stoull (Json.dumpNat a.body.length) = some (UInt64.ofNat a.body.length) := by
    have h := stoull_toString (UInt64.ofNat a.body.length)
    rwa [Auth.toString, hnat] at h
  rw [announced, hfind]
  dsimp only
  rw [hend, hread, Option.map_some, hnat]
  rfl

/-! ### What the client has -/

/-- What was read, whether its end was seen or the peer closed. -/
def responseData : Received → Text
  | .ended responseData _ => responseData
  | .all responseData => responseData

/-- All of a response is read if no proper start of it is whole: its end is seen, or the
peer closes. -/
theorem responseData_of_start {s : Text} (hstart : ∀ p, p <+: s → p ≠ [] → p ≠ s → whole p = false) :
    ∀ {pieces : List Text} {front : Text}, (∀ p ∈ pieces, p ≠ []) → front ++ pieces.flatten = s →
      responseData (readHttpResponse true pieces (.of front)) = s
  | [], front, _, hs => by
    rw [readHttpResponse, responseData, Reading.responseData_of, ← hs, List.flatten_nil, List.append_nil]
  | piece :: pieces, front, hne, hs => by
    obtain ⟨hpiece, hpieces⟩ := List.forall_mem_cons.mp hne
    rw [List.flatten_cons, ← List.append_assoc] at hs
    rw [readHttpResponse, Reading.append_of, Reading.ended_of, Bool.true_and, Reading.responseData_of]
    cases hw : whole (front ++ piece) with
    | false =>
      rw [if_neg Bool.false_ne_true]
      exact responseData_of_start hstart hpieces hs
    | true =>
      rw [if_pos rfl, responseData]
      by_contra hproper
      rw [hstart _ ⟨_, hs⟩ (List.append_ne_nil_of_right_ne_nil _ hpiece) hproper] at hw
      cases hw

/-- No proper start of a response of the REST port is whole. -/
theorem not_whole_restReply (a : Proxy.Answer) {p : Text} (hp : p <+: (restReply a).bytes)
    (hproper : p ≠ (restReply a).bytes) : whole p = false := by
  have hend := (wellFormed_restReply a).find_blankLine
  rcases Nat.lt_or_ge p.length ((restReply a).head.length + 4) with hshort | hlong
  · exact not_whole_of_short hend hp hshort
  · have hhead : (restReply a).head ++ blankLine <+: p := by
      refine List.prefix_of_prefix_length_le (List.prefix_append _ _) hp ?_
      rw [List.length_append]
      exact hlong
    obtain ⟨b, rfl⟩ := hhead
    have hb : b <+: a.body := (List.prefix_append_right_inj _).mp hp
    have hbody : ¬ a.body.length ≤ b.length := fun hle =>
      hproper (congrArg ((restReply a).head ++ blankLine ++ ·) (hb.eq_of_length_le hle))
    have hlength : ¬ (find transferChunked (restReply a).head).isSome = true := not_chunked_restReply a
    rw [whole_append hend, wholeBody, if_neg hlength, announced_restReply]
    simp [hbody]

/-- However the response comes, the client has its status and its body. -/
theorem parse_restReply (a : Proxy.Answer) {pieces : List Text}
    (hc : Arrival.Cut pieces (Proxy.jsonResponse a.status a.body)) (fuel : ℕ) :
    parseHttpResponse fuel (responseData (readHttpResponse true pieces {})) = some (.ok ⟨a.status, a.body⟩) := by
  rw [← bytes_restReply] at hc
  have hread : responseData (readHttpResponse true pieces (.of [])) = (restReply a).bytes :=
    responseData_of_start (fun p hp _ hproper => not_whole_restReply a hp hproper) hc.nonempty
      (by rw [List.nil_append, hc.flatten])
  rw [Reading.of_nil] at hread
  rw [hread, (wellFormed_restReply a).parse_bytes, if_neg (not_chunked_restReply a)]
  rfl

/-! ### The exchange -/

/-- What the REST port answers to what arrives: to a request that is routed, what its
handler answers. -/
def answers {F : Type} (s : RestServer F) (handler : Text → Text → Text → Proxy.Answer)
    (refusal : Refusal → Proxy.Answer) (sizes : List ℕ) (sent : Text) : Option Proxy.Answer :=
  match s.handleClient sizes sent with
  | .closed => none
  | .refused e => some (refusal e)
  | .routed method path body => some (handler method path body)

/-- **An exchange**: however the request and the response are cut, the client has what
the handler answers to the method, the path and the body it sent. With a token
configured it has the refusal, but for a health probe. -/
theorem exchange_eq {F : Type} (s : RestServer F) (handler : Text → Text → Text → Proxy.Answer)
    (refusal : Refusal → Proxy.Answer) {method host path body : Text} (h : Sendable method host path body)
    {sizes : List ℕ} (hs : Framing.Splits sizes (buildHttpRequest method host path body [] true)) :
    ∃ a, answers s handler refusal sizes (buildHttpRequest method host path body [] true) = some a ∧
      a = (if s.apiToken = [] ∨ cleanPath path = Utf8.bytes "/v1/health" then handler method path body
        else refusal ⟨401, "unauthorized"⟩) ∧
      ∀ pieces, Arrival.Cut pieces (Proxy.jsonResponse a.status a.body) → ∀ fuel,
        parseHttpResponse fuel (responseData (readHttpResponse true pieces {})) = some (.ok ⟨a.status, a.body⟩) := by
  refine ⟨_, ?_, rfl, fun pieces hc fuel => parse_restReply _ hc fuel⟩
  rw [answers, handleClient_buildHttpRequest s h hs]
  by_cases hroute : s.apiToken = [] ∨ cleanPath path = Utf8.bytes "/v1/health"
  · rw [if_pos hroute, if_pos hroute]
  · rw [if_neg hroute, if_neg hroute]

/-- A server without a token. -/
def unguarded : RestServer UInt32 := { guarded with apiToken := [] }

def summaryPath : Text := Utf8.bytes "/v1/sessions/7/summary"

theorem sendable_summary : Sendable (Utf8.bytes "GET") (Utf8.bytes "127.0.0.1") summaryPath [] where
  plainMethod := ⟨by decide, by decide, by decide⟩
  methodBlank := by decide
  plainHost := ⟨by decide, by decide, by decide⟩
  plainPath := ⟨by decide, by decide, by decide⟩
  pathBlank := by decide
  limit := by decide
  size := by decide

def unauthorized : Proxy.Answer where
  status := 401
  lower := by decide
  upper := by decide
  body := Utf8.bytes "\x7b\"error\":\"unauthorized\"\x7d"
  short := by decide

/-- A summary is asked for in two pieces. -/
theorem exchange_summary :
    ∃ a, answers unguarded (fun _ _ body => Proxy.stored body) (fun _ => unauthorized) [60, 8192]
        (buildHttpRequest (Utf8.bytes "GET") (Utf8.bytes "127.0.0.1") summaryPath [] [] true) = some a ∧
      a = (if unguarded.apiToken = [] ∨ cleanPath summaryPath = Utf8.bytes "/v1/health" then Proxy.stored []
        else unauthorized) ∧
      ∀ pieces, Arrival.Cut pieces (Proxy.jsonResponse a.status a.body) → ∀ fuel,
        parseHttpResponse fuel (responseData (readHttpResponse true pieces {})) = some (.ok ⟨a.status, a.body⟩) :=
  exchange_eq unguarded (fun _ _ body => Proxy.stored body) (fun _ => unauthorized) sendable_summary
    ⟨by decide, by decide⟩

end Sdk
end Amind
