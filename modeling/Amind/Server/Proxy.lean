/-
# The proxy of the web interface

A request for the API is read with one `recv`. What was read of it is cut apart, put
together again with the length that was read, and sent to the REST port, which waits
for as much of a body as it is told (`Framing.receive`). The web interface does not:
of a body that comes later nothing is sent on, and the REST port is told so.

The way back is read to its end, so what the REST port answers gets through
(`respond_connection`).

`passesFaithfully_iff` says how much of a request has to come at once.
-/
import Amind.Server.Framing
import Amind.Server.Throws

namespace Amind
namespace Server
namespace Proxy

open Amind.Core Amind.Search Amind.Cut
open RestServer Throws

/-! ### What comes back -/

/-- The response of the REST port. -/
def jsonResponse (status : ℕ) (body : Text) : Text :=
  let statusText := if status = 200 then "OK" else "Error"
  Utf8.bytes "HTTP/1.1 " ++ Json.dumpNat status ++ Utf8.bytes " " ++ Utf8.bytes statusText ++ CRLF ++
    Utf8.bytes "Content-Type: application/json\r\n" ++
    Utf8.bytes "Content-Length: " ++ Json.dumpNat body.length ++ CRLF ++
    Utf8.bytes "Connection: close\r\n\r\n" ++
    body

/-- What a request is answered: a status of three digits, as all of the REST port
are, and a body. -/
structure Answer where
  status : ℕ
  lower : 100 ≤ status
  upper : status < 1000
  body : Text
  short : (jsonResponse status body).length < 2 ^ 63

/-- The connection on which it arrives. -/
def Answer.connection (a : Answer) : Connection := .closed (jsonResponse a.status a.body) a.short

section Response

variable {status : ℕ}

def statusLine (status : ℕ) : Text :=
  Utf8.bytes "HTTP/1.1" ++ 0x20 :: (Json.dumpNat status ++ 0x20 :: Utf8.bytes (if status = 200 then "OK" else "Error"))

def answerHead (status : ℕ) (body : Text) : Text :=
  statusLine status ++ CRLF ++ (Utf8.bytes "Content-Type: application/json" ++ CRLF ++
    (Utf8.bytes "Content-Length:" ++ (0x20 :: Json.dumpNat body.length) ++ CRLF ++ Utf8.bytes "Connection: close"))

theorem jsonResponse_eq (status : ℕ) (body : Text) :
    jsonResponse status body = answerHead status body ++ blankLine ++ body := by
  have h₁ : Utf8.bytes "HTTP/1.1 " = Utf8.bytes "HTTP/1.1" ++ [0x20] := by decide
  have h₂ : Utf8.bytes "Content-Type: application/json\r\n" = Utf8.bytes "Content-Type: application/json" ++ CRLF := by
    decide
  have h₃ : Utf8.bytes "Content-Length: " = Utf8.bytes "Content-Length:" ++ [0x20] := by decide
  have h₄ : Utf8.bytes "Connection: close\r\n\r\n" = Utf8.bytes "Connection: close" ++ blankLine := by decide
  have h₅ : Utf8.bytes " " = [0x20] := by decide
  unfold jsonResponse answerHead statusLine
  rw [h₁, h₂, h₃, h₄, h₅]
  simp only [List.append_assoc, List.cons_append, List.nil_append]

theorem no_return_dumpNat (n : ℕ) : 0x0D ∉ Json.dumpNat n := fun h =>
  absurd (Json.dumpNat_digits n _ h) (by decide)

theorem no_return_statusLine (status : ℕ) : 0x0D ∉ statusLine status := by
  have hname : 0x0D ∉ Utf8.bytes "HTTP/1.1" := by decide
  have htext : 0x0D ∉ Utf8.bytes (if status = 200 then "OK" else "Error") := by split <;> decide
  have hblank : (0x0D : UInt8) ≠ 0x20 := by decide
  simp [statusLine, hname, htext, hblank, no_return_dumpNat]

theorem isHead_answerHead (status : ℕ) (body : Text) : IsHead (answerHead status body) := by
  have hlast : IsHead (Utf8.bytes "Connection: close") := .of_line (by decide) (by decide)
  have hname : 0x0D ∉ Utf8.bytes "Content-Length:" := by decide
  have hblank : (0x0D : UInt8) ≠ 0x20 := by decide
  have hlength : 0x0D ∉ Utf8.bytes "Content-Length:" ++ (0x20 :: Json.dumpNat body.length) := by
    simp [hname, hblank, no_return_dumpNat]
  have htype : 0x0D ∉ Utf8.bytes "Content-Type: application/json" := by decide
  exact ((hlast.cons (List.cons_ne_nil _ _) hlength).cons (List.cons_ne_nil _ _) htype).cons (List.cons_ne_nil _ _)
    (no_return_statusLine status)

theorem length_dumpNat (hlower : 100 ≤ status) (hupper : status < 1000) : (Json.dumpNat status).length = 3 := by
  have hlog : Nat.log 10 status = 2 := Nat.log_eq_of_pow_le_of_lt_pow hlower hupper
  have hne : status ≠ 0 := by omega
  rw [Json.dumpNat, if_neg hne, List.length_map, List.length_reverse, Nat.length_digits 10 status (by omega) hne, hlog]

/-- A number is read back from its digits. -/
theorem stoi_dumpNat {n : ℕ} (h : n < 2 ^ 31) : Config.stoi (Json.dumpNat n) = some (n : ℤ) := by
  obtain ⟨b, t, hb⟩ := List.exists_cons_of_ne_nil (Json.dumpNat_ne_nil n)
  have hdigit : Json.isDigit b = true := Json.dumpNat_digits n b (hb ▸ List.mem_cons_self)
  have hfirst : ∀ b : Fin 256, Json.isDigit (.ofFin b) = true →
      Config.isSpace (.ofFin b) = false ∧ UInt8.ofFin b ≠ 0x2D ∧ UInt8.ofFin b ≠ 0x2B := by decide +kernel
  obtain ⟨hblank, hnominus, hnoplus⟩ : Config.isSpace b = false ∧ b ≠ 0x2D ∧ b ≠ 0x2B := hfirst b.toFin hdigit
  have hspace : (Json.dumpNat n).dropWhile Config.isSpace = Json.dumpNat n := by
    rw [hb, List.dropWhile_cons_of_neg (by simp [hblank])]
  have hminus : (Json.dumpNat n).head? ≠ some 0x2D := by
    rw [hb, List.head?_cons]
    exact fun heq => hnominus (Option.some.inj heq)
  have hplus : (Json.dumpNat n).head? ≠ some 0x2B := by
    rw [hb, List.head?_cons]
    exact fun heq => hnoplus (Option.some.inj heq)
  have hrange : -2 ^ 31 ≤ (n : ℤ) ∧ (n : ℤ) < 2 ^ 31 := by omega
  unfold Config.stoi
  simp only [hspace, hminus, hplus, decide_false, or_self, if_false, Json.takeWhile_dumpNat, Json.readNat_dumpNat,
    Json.dumpNat_ne_nil, Bool.false_eq_true, hrange, and_self, if_true]

/-- The status is that of the response. -/
theorem statusOf_jsonResponse (hlower : 100 ≤ status) (hupper : status < 1000) {body : Text}
    (hshort : (jsonResponse status body).length < 2 ^ 63) :
    statusOf (jsonResponse status body) = .ok (status : ℤ) := by
  obtain ⟨rest, hrest⟩ : ∃ rest, jsonResponse status body = statusLine status ++ (CRLF ++ rest) :=
    ⟨_, by rw [jsonResponse_eq, answerHead, List.append_assoc, List.append_assoc, List.append_assoc]⟩
  have hend : find CRLF (jsonResponse status body) = some (statusLine status).length := by
    rw [hrest]
    exact find_lineEnd (no_return_statusLine status) rest
  have hline : upTo CRLF (jsonResponse status body) = statusLine status := by
    rw [upTo_eq_take hend, hrest, List.take_left]
  have hfound : findFrom CRLF (jsonResponse status body) 0 ≠ npos := by
    rw [ne_eq, findFrom_eq_npos_iff CRLF_ne_nil hshort, hend]
    exact Option.some_ne_none _
  have hblank : findFrom [0x20] (statusLine status) 0 = 8 :=
    findFrom_of_some (find_singleton (s := Utf8.bytes "HTTP/1.1") (by decide) _)
  have hdigits : substr (statusLine status) (8 + 1) 3 = .ok (Json.dumpNat status) := by
    have hrest : (statusLine status).drop 9 = Json.dumpNat status ++ 0x20 :: Utf8.bytes _ := rfl
    have hnine : (8 + 1 : UInt64).toNat ≤ (statusLine status).length := by
      rw [statusLine, List.length_append, List.length_cons]
      exact Nat.le_trans (by decide) (Nat.add_le_add_left (Nat.succ_le_succ (Nat.zero_le _)) _)
    rw [substr_of_le hnine]
    change Except.ok (((statusLine status).drop 9).take 3) = _
    rw [hrest, ← length_dumpNat hlower hupper, List.take_left]
  have hread : Config.stoi (Json.dumpNat status) = some (status : ℤ) := stoi_dumpNat (by omega)
  unfold statusOf
  dsimp only
  rw [if_neg hfound]
  refine bind_eq_ok.mpr ⟨statusLine status, by rw [substr_find CRLF_ne_nil hshort, hline], ?_⟩
  rw [hblank, if_neg (by decide), hdigits]
  dsimp only
  rw [hread]
  rfl

/-- **What the REST port answers gets through**: the response of the web interface
has its status and its body. -/
theorem respond_connection (a : Answer) :
    respond a.connection = .ok (httpResponse a.status "application/json" a.body) := by
  have hend : find blankLine (jsonResponse a.status a.body) = some (answerHead a.status a.body).length := by
    rw [jsonResponse_eq]
    exact (isHead_answerHead a.status a.body).find a.body
  have hne : jsonResponse a.status a.body ≠ [] := by
    intro hnil
    rw [hnil] at hend
    cases hend
  have hbody : cutResponse (jsonResponse a.status a.body) = .ok a.body := by
    have hfound := (findFrom_eq_npos_iff blankLine_ne_nil a.short).not.mpr (by rw [hend]; exact Option.some_ne_none _)
    have hlen : (answerHead a.status a.body).length + 4 = (answerHead a.status a.body ++ blankLine).length := by
      rw [List.length_append]
      rfl
    unfold cutResponse
    dsimp only
    rw [if_neg hfound, findFrom_of_some hend, cut_behind a.short hend, hlen, jsonResponse_eq, List.drop_left]
  unfold Answer.connection respond
  dsimp only
  rw [if_neg hne, wrapResponse, statusOf_jsonResponse a.lower a.upper a.short, hbody]
  rfl

end Response

/-! ### What is sent on -/

/-- The request that should be sent on for one of the API. -/
def passedOn (w : WebServer) (r : Framing.Request) : Framing.Request where
  method := r.method
  path := r.path.drop 4
  version := Utf8.bytes "HTTP/1.1"
  fields :=
    [Utf8.bytes "Host: 127.0.0.1:" ++ Json.dumpInt w.apiPort, Utf8.bytes "Content-Type: application/json"] ++
    (if w.apiToken ≠ [] then [Utf8.bytes "Authorization: Bearer " ++ w.apiToken] else []) ++
    [Utf8.bytes "Content-Length: " ++ Json.dumpNat r.body.length, Utf8.bytes "Connection: close"]
  body := r.body

/-- A request for the API, as far as the web interface looks at it. -/
structure ForApi (r : Framing.Request) : Prop where
  method : 0x20 ∉ r.method
  path : 0x20 ∉ r.path
  line : 0x0D ∉ r.line
  ends : find blankLine r.bytes = some r.head.length
  api : Utf8.bytes "/api/" <+: r.path

/-- The request is sent on in full, and its answer comes back. `rest` is what the
REST port answers, and `n` how much of the request one read returns. -/
structure Faithful (w : Site) (disk : Disk) (rest : Text → Answer) (n : ℕ) (r : Framing.Request) : Prop where
  forwarded : w.toWebServer.handleClient n r.bytes = .forwarded (passedOn w.toWebServer r).bytes
  answered : Site.handleClient w disk (fun request => (rest request).connection) n r.bytes =
    .ok (some (httpResponse (rest (passedOn w.toWebServer r).bytes).status "application/json"
      (rest (passedOn w.toWebServer r).bytes).body))

section Forward

variable {w : WebServer} {r : Framing.Request}

theorem bytes_passedOn (w : WebServer) (r : Framing.Request) :
    (passedOn w r).bytes = w.proxyToApi r.method (r.path.drop 4) r.body := by
  have h₁ : Utf8.bytes " HTTP/1.1\r\n" = 0x20 :: Utf8.bytes "HTTP/1.1" ++ CRLF := by decide
  have h₂ : Utf8.bytes "Content-Type: application/json\r\n" = Utf8.bytes "Content-Type: application/json" ++ CRLF := by
    decide
  have h₃ : Utf8.bytes "Connection: close\r\n\r\n" = Utf8.bytes "Connection: close" ++ blankLine := by decide
  have h₄ : Utf8.bytes " " = [0x20] := by decide
  unfold Framing.Request.bytes Framing.Request.head Framing.Request.line passedOn WebServer.proxyToApi
  rw [h₁, h₂, h₃, h₄]
  split <;> simp

theorem takeWhile_dumpNat_line (n : ℕ) (t : Text) :
    (Json.dumpNat n ++ (CRLF ++ t)).takeWhile Json.isDigit = Json.dumpNat n := by
  have hstop : Json.isDigit 0x0D = false := by decide
  change (Json.dumpNat n ++ 0x0D :: (0x0A :: t)).takeWhile Json.isDigit = Json.dumpNat n
  rw [List.takeWhile_append_of_pos (Json.dumpNat_digits n), List.takeWhile_cons_of_neg (by simp [hstop]),
    List.append_nil]

/-- Two requests sent on are the same only with the same body: the length in front
of it ends with its line. -/
theorem proxyToApi_inj {w : WebServer} {method path body body' : Text}
    (h : w.proxyToApi method path body = w.proxyToApi method path body') : body = body' := by
  unfold WebServer.proxyToApi at h
  simp only [List.append_assoc, List.append_cancel_left_eq] at h
  have hdigits : Json.dumpNat body.length = Json.dumpNat body'.length := by
    have htake := congrArg (List.takeWhile Json.isDigit) h
    rwa [takeWhile_dumpNat_line, takeWhile_dumpNat_line] at htake
  simpa only [hdigits, List.append_cancel_left_eq] using h

/-- What was read has the first line. -/
theorem ForApi.requestLine_take (h : ForApi r) {k : ℕ} (hk : r.line.length + 2 ≤ k) :
    find CRLF (r.bytes.take k) = some r.line.length ∧ requestLine (r.bytes.take k) = (r.method, r.path) := by
  obtain ⟨rest, hrest⟩ := r.bytes_eq
  have hlen : (r.line ++ CRLF).length = r.line.length + 2 := List.length_append
  have htake : r.bytes.take k = r.line ++ (CRLF ++ rest.take (k - (r.line.length + 2))) := by
    rw [hrest, ← List.append_assoc, List.take_append, List.take_of_length_le (by omega), hlen, List.append_assoc]
  rw [htake]
  exact ⟨find_lineEnd h.line _, requestLine_of_parts h.method h.path h.line _⟩

/-- What was read has that much of the body. -/
theorem ForApi.bodyOf_take (h : ForApi r) (k : ℕ) :
    WebServer.bodyOf (r.bytes.take k) = r.body.take (k - (r.head.length + 4)) := by
  have hbody : r.bytes.drop (r.head.length + 4) = r.body := by
    have hlen : r.head.length + 4 = (r.head ++ blankLine).length := by
      rw [List.length_append]
      rfl
    rw [hlen, Framing.Request.bytes, List.drop_left]
  unfold WebServer.bodyOf
  cases hf : find blankLine (r.bytes.take k) with
  | none =>
    have hk : k ≤ r.head.length + 4 := by
      by_contra hk
      rw [find_take blankLine_ne_nil h.ends (by rw [show blankLine.length = 4 from rfl]; omega)] at hf
      cases hf
    rw [Nat.sub_eq_zero_of_le hk, List.take_zero]
  | some i =>
    have hi := find_longer blankLine_ne_nil hf (List.take_prefix _ _)
    rw [h.ends] at hi
    obtain rfl := Option.some.inj hi
    dsimp only
    rw [List.drop_take, hbody]

/-- **What is sent on**: the request, if its first line was read, and all of its body
if it has one. -/
theorem ForApi.forwarded_iff (h : ForApi r) {w : WebServer} {n : ℕ} :
    w.handleClient n r.bytes = .forwarded (passedOn w r).bytes ↔
      r.line.length + 2 ≤ min n 65535 ∧ (r.body = [] ∨ r.bytes.length ≤ min n 65535) := by
  have hbytes : r.bytes.length = r.head.length + 4 + r.body.length := by
    rw [Framing.Request.bytes, List.length_append, List.length_append]
    rfl
  have hwhole : ∀ k, r.body.take (k - (r.head.length + 4)) = r.body ↔ r.body = [] ∨ r.bytes.length ≤ k := by
    intro k
    rw [List.take_eq_self_iff, ← List.length_eq_zero_iff]
    omega
  rw [RestServer.forwarded_iff, bytes_passedOn]
  constructor
  · rintro ⟨hline, -, hsent⟩
    have hk : r.line.length + 2 ≤ min n 65535 := by
      obtain ⟨i, hi⟩ := Option.isSome_iff_exists.mp hline
      have hlen := length_of_find CRLF_ne_nil hi
      have hlong := find_longer CRLF_ne_nil hi (List.take_prefix _ _)
      obtain ⟨rest, hrest⟩ := r.bytes_eq
      rw [hrest, find_lineEnd h.line] at hlong
      obtain rfl := Option.some.inj hlong
      exact Nat.le_trans hlen (List.length_take_le _ _)
    rw [(h.requestLine_take hk).2, h.bodyOf_take] at hsent
    exact ⟨hk, (hwhole _).mp (proxyToApi_inj hsent).symm⟩
  · rintro ⟨hk, hbody⟩
    obtain ⟨hfind, hline⟩ := h.requestLine_take hk
    rw [hfind, hline, h.bodyOf_take, (hwhole _).mpr hbody]
    exact ⟨rfl, h.api, rfl⟩

end Forward

/-- **Which requests are passed on faithfully**: of a request for the API the first
read has to return the first line, and all of the request if there is a body. -/
theorem passesFaithfully_iff (w : Site) (disk : Disk) (rest : Text → Answer) (n : ℕ) {r : Framing.Request}
    (h : ForApi r) :
    Faithful w disk rest n r ↔
      r.line.length + 2 ≤ min n 65535 ∧ (r.body = [] ∨ r.bytes.length ≤ min n 65535) := by
  rw [← h.forwarded_iff (w := w.toWebServer)]
  refine ⟨Faithful.forwarded, fun hsent => ⟨hsent, ?_⟩⟩
  rw [Site.handleClient_eq, hsent]
  dsimp only
  rw [respond_connection]
  rfl

/-- A request to store a memory, of which the body comes behind the head. -/
def storeRequest : Framing.Request where
  method := Utf8.bytes "POST"
  path := Utf8.bytes "/api/v1/memories"
  version := Utf8.bytes "HTTP/1.1"
  fields := [Utf8.bytes "Content-Length: 15"]
  body := Utf8.bytes "\x7b\"content\":\"a\"\x7d"

theorem wellFormed_store : storeRequest.WellFormed where
  method := by decide
  path := by decide
  line := by decide
  ends := by decide +kernel
  limit := by decide
  length := .inField 32 (Utf8.bytes "15") (by decide +kernel) ⟨by decide, by decide⟩ (by decide +kernel)
    (by decide +kernel)
  body := by decide

/-- `201`, and a name. -/
def stored (_ : Text) : Answer where
  status := 201
  lower := by decide
  upper := by decide
  body := Utf8.bytes "\x7b\"id\":1\x7d"
  short := by decide

/-- It is passed on where it comes at once. -/
theorem faithful_store : ∃ n, Faithful dashboard dashboardDisk stored n storeRequest := by
  have hforApi : ForApi storeRequest :=
    ⟨wellFormed_store.method, wellFormed_store.path, wellFormed_store.line, wellFormed_store.ends, by decide⟩
  exact ⟨69, (passesFaithfully_iff dashboard dashboardDisk stored 69 hforApi).mpr ⟨by decide, .inr (by decide)⟩⟩

/-- Where the head comes first, a request without a body is sent on, which the REST
port takes as it is. -/
theorem not_faithful_store : storeRequest.WellFormed ∧ Utf8.bytes "/api/" <+: storeRequest.path ∧
    Framing.Splits [54, 15] storeRequest.bytes ∧ ¬ Faithful dashboard dashboardDisk stored 54 storeRequest ∧
    ∃ request, dashboard.toWebServer.handleClient 54 storeRequest.bytes = .forwarded request ∧
      ∃ headers, Framing.receive (List.replicate 9 8192) request =
        .request (Utf8.bytes "POST") (Utf8.bytes "/v1/memories") headers [] := by
  refine ⟨wellFormed_store, by decide, ⟨by decide, by decide⟩, fun h => ?_, _, rfl, ?_⟩
  · have hsent := h.forwarded
    revert hsent
    decide +kernel
  · refine ⟨upTo blankLine (dashboard.toWebServer.proxyToApi (Utf8.bytes "POST") (Utf8.bytes "/v1/memories") []), ?_⟩
    decide +kernel

end Proxy
end Server
end Amind
