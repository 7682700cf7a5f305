/-
# What the client sends

A request of the client is well formed for the REST port, which receives the method,
the path and the body however the request is cut (`receive_buildHttpRequest`). The host
and the path have to be plain: they are put into the head as they are.

The client has no token. So what it sends is routed if none is configured, or to the
health probe, and is refused otherwise (`handleClient_buildHttpRequest`).
-/
import Amind.Provider.HttpClient
import Amind.Server.Framing

namespace Amind
namespace Provider
namespace HttpClient

open Amind.Core Amind.Auth Amind.Search Amind.Server
open Amind.Server.ContentLength (fieldName isBlank valueIn AllDigits)
open Amind.Server.RestServer (Plain)

/-! ### The length of the body -/

/-- The value of a line of the length. -/
theorem valueIn_lengthLine (n : ℕ) : valueIn (lengthName ++ Json.dumpNat n) = Json.dumpNat n := by
  have hblank : ∀ b ∈ Json.dumpNat n, isBlank b = false := by
    intro b hb
    have hall : ∀ b : Fin 256, Json.isDigit (.ofFin b) = true → isBlank (.ofFin b) = false := by decide +kernel
    exact hall b.toFin (Json.dumpNat_digits n b hb)
  have hdrop : (lengthName ++ Json.dumpNat n).drop fieldName.length = 0x20 :: Json.dumpNat n := by
    have hsplit : lengthName ++ Json.dumpNat n = Utf8.bytes "Content-Length:" ++ 0x20 :: Json.dumpNat n := by
      have hname : lengthName = Utf8.bytes "Content-Length:" ++ [0x20] := by decide
      rw [hname, List.append_assoc, List.singleton_append]
    rw [hsplit]
    exact List.drop_left' (by decide)
  have hright : (Json.dumpNat n).rdropWhile isBlank = Json.dumpNat n := by
    rw [List.rdropWhile_eq_self_iff]
    intro hne hlast
    rw [hblank _ (List.getLast_mem hne)] at hlast
    cases hlast
  have hleft : (Json.dumpNat n).dropWhile isBlank = Json.dumpNat n := by
    rw [List.dropWhile_eq_self_iff]
    intro hpos hfirst
    rw [hblank _ (List.getElem_mem hpos)] at hfirst
    cases hfirst
  rw [valueIn, hdrop, Lines.trim, List.dropWhile_cons_of_pos (by decide), hleft, hright]

/-- A head with a line of the length announces it. -/
theorem announces_lengthLine {line : Text} {front back : List Text} (n : ℕ)
    (hline : find fieldName (line.map toLower) = none) (hfront : ∀ l ∈ front, find fieldName (l.map toLower) = none) :
    Framing.Announces (line ++ (front ++ (lengthName ++ Json.dumpNat n) :: back).flatMap (CRLF ++ ·)) n := by
  have hnamed : fieldName <+: (lengthName ++ Json.dumpNat n).map toLower := by
    rw [List.map_append]
    exact List.IsPrefix.trans (by decide) (List.prefix_append _ _)
  obtain ⟨pos, hfind, hstarts, hdrop⟩ :=
    find_lines toLower_lineEnd (by decide) (by decide) (List.cons_ne_nil _ _) hnamed back
    hline hfront
  have hreturn : ∀ b ∈ lengthName ++ Json.dumpNat n, CRLF.head? ≠ some b := by
    have hno : 0x0D ∉ lengthName ++ Json.dumpNat n := by
      rw [List.mem_append]
      exact not_or.mpr ⟨by decide, Proxy.no_return_dumpNat n⟩
    intro b hb heq
    exact hno (Option.some.inj heq ▸ hb)
  have hends : upTo CRLF (back.flatMap (CRLF ++ ·)) = [] := by
    cases back with
    | nil => rfl
    | cons b bs =>
      rw [List.flatMap_cons, List.append_assoc]
      exact upTo_eq_take (find_of_starts (List.prefix_append _ _))
  have hvalue : ContentLength.lengthField
      (line ++ (front ++ (lengthName ++ Json.dumpNat n) :: back).flatMap (CRLF ++ ·)) = some (Json.dumpNat n) := by
    rw [ContentLength.lengthField_eq hfind hstarts, hdrop, upTo_append hreturn CRLF_ne_nil, hends, List.append_nil,
      valueIn_lengthLine]
  have hdigits : AllDigits (Json.dumpNat n) := ⟨Json.dumpNat_ne_nil n, Json.dumpNat_digits n⟩
  have hannounces := Framing.Announces.inField pos _ hfind hstarts hvalue hdigits
  rwa [Json.readNat_dumpNat] at hannounces

/-! ### Requests -/

/-- The request as the REST port looks at it, on a connection that is kept. -/
def request (method host path body : Text) : Framing.Request where
  method := method
  path := path
  version := Utf8.bytes "HTTP/1.1"
  fields := requestFields host body [] true
  body := body

/-- A line end is behind each line, or in front of it. -/
theorem flatMap_lineEnd (fields : List Text) :
    CRLF ++ fields.flatMap (· ++ CRLF) = fields.flatMap (CRLF ++ ·) ++ CRLF := by
  induction fields with
  | nil => rfl
  | cons f fs ih =>
    rw [List.flatMap_cons, List.flatMap_cons]
    simp only [List.append_assoc]
    rw [ih]

theorem bytes_request (method host path body : Text) :
    (request method host path body).bytes = buildHttpRequest method host path body [] true := by
  have hversion : Utf8.bytes " HTTP/1.1\r\n" = 0x20 :: Utf8.bytes "HTTP/1.1" ++ CRLF := by decide
  have hblank : Utf8.bytes " " = [0x20] := by decide
  unfold Framing.Request.bytes Framing.Request.head Framing.Request.line buildHttpRequest request
  dsimp only
  rw [hversion, hblank]
  simp only [blankLine, List.append_assoc, List.cons_append, List.nil_append]
  congr 3
  rw [← List.append_assoc (List.flatMap _ _) CRLF (CRLF ++ body), ← flatMap_lineEnd]
  simp only [List.append_assoc]

/-- The host and the path are plain, and the head and the body not too long. -/
structure Sendable (method host path body : Text) : Prop where
  plainMethod : Plain method
  methodBlank : 0x20 ∉ method
  plainHost : Plain host
  plainPath : Plain path
  pathBlank : 0x20 ∉ path
  limit : (request method host path body).head.length + 4 ≤ 64 * 1024
  size : body.length ≤ MAX_BODY_SIZE

section Sent

variable {method host path body : Text}

theorem Sendable.line (h : Sendable method host path body) :
    Plain (method ++ 0x20 :: path ++ 0x20 :: Utf8.bytes "HTTP/1.1") :=
  RestServer.plain_first h.plainMethod h.plainPath

theorem Sendable.hostLine (h : Sendable method host path body) : Plain (Utf8.bytes "Host: " ++ host) := by
  have hname : Plain (Utf8.bytes "Host:") := .of_all (by decide)
  have hsplit : Utf8.bytes "Host: " ++ host = Utf8.bytes "Host:" ++ 0x20 :: host := by
    have hblank : Utf8.bytes "Host: " = Utf8.bytes "Host:" ++ [0x20] := by decide
    rw [hblank, List.append_assoc, List.singleton_append]
  rw [hsplit]
  exact hname.blank h.plainHost

theorem plain_keepAlive : Plain (Utf8.bytes "Connection: keep-alive") where
  line := by decide
  authorization := by decide
  contentLength := by decide

/-- The fields of a request without extra headers. -/
theorem requestFields_cases (host body : Text) :
    (body = [] ∧ requestFields host body [] true =
        [Utf8.bytes "Host: " ++ host, Utf8.bytes "Connection: keep-alive"]) ∨
      (body ≠ [] ∧ requestFields host body [] true =
        [Utf8.bytes "Host: " ++ host, Utf8.bytes "Connection: keep-alive",
          Utf8.bytes "Content-Type: application/json"] ++
          (lengthName ++ Json.dumpNat body.length) :: []) := by
  by_cases hbody : body = []
  · exact .inl ⟨hbody, by simp [requestFields, hbody]⟩
  · exact .inr ⟨hbody, by simp [requestFields, hbody, lengthName]⟩

theorem Sendable.announces (h : Sendable method host path body) :
    Framing.Announces (request method host path body).head body.length := by
  unfold Framing.Request.head Framing.Request.line request
  dsimp only
  rcases requestFields_cases host body with ⟨hbody, hfields⟩ | ⟨-, hfields⟩
  · rw [hfields, hbody]
    refine .absent (find_lines_none toLower_lineEnd (by decide) (by decide) (List.cons_ne_nil _ _) h.line.contentLength ?_)
    simp only [List.mem_cons, List.not_mem_nil, or_false, forall_eq_or_imp, forall_eq]
    exact ⟨h.hostLine.contentLength, plain_keepAlive.contentLength⟩
  · rw [hfields]
    refine announces_lengthLine body.length h.line.contentLength ?_
    simp only [List.mem_cons, List.not_mem_nil, or_false, forall_eq_or_imp, forall_eq]
    exact ⟨h.hostLine.contentLength, plain_keepAlive.contentLength, RestServer.plain_type.contentLength⟩

theorem Sendable.wellFormed (h : Sendable method host path body) : (request method host path body).WellFormed where
  method := h.methodBlank
  path := h.pathBlank
  line := h.line.line
  ends := by
    have hlines : ∀ f ∈ requestFields host body [] true, f ≠ [] ∧ 0x0D ∉ f := by
      have hlength : 0x0D ∉ lengthName ++ Json.dumpNat body.length := by
        rw [List.mem_append]
        exact not_or.mpr ⟨by decide, Proxy.no_return_dumpNat _⟩
      have hhost : Utf8.bytes "Host: " ++ host ≠ [] := List.cons_ne_nil _ _
      have hlong : lengthName ++ Json.dumpNat body.length ≠ [] := List.cons_ne_nil _ _
      rcases requestFields_cases host body with ⟨-, hfields⟩ | ⟨-, hfields⟩
      · rw [hfields]
        simp only [List.mem_cons, List.not_mem_nil, or_false, forall_eq_or_imp, forall_eq]
        exact ⟨⟨hhost, h.hostLine.line⟩, by decide, plain_keepAlive.line⟩
      · rw [hfields, List.forall_mem_append, List.forall_mem_singleton]
        simp only [List.mem_cons, List.not_mem_nil, or_false, forall_eq_or_imp, forall_eq]
        exact ⟨⟨⟨hhost, h.hostLine.line⟩, ⟨by decide, plain_keepAlive.line⟩, by decide, RestServer.plain_type.line⟩,
          hlong, hlength⟩
    have hline : method ++ 0x20 :: path ++ 0x20 :: Utf8.bytes "HTTP/1.1" ≠ [] :=
      List.append_ne_nil_of_right_ne_nil _ (List.cons_ne_nil _ _)
    exact (isHead_lines hline h.line.line hlines).find body
  limit := h.limit
  length := h.announces
  body := h.size

/-- **What the client sends is received**, however it is cut. -/
theorem receive_buildHttpRequest (h : Sendable method host path body) {sizes : List ℕ}
    (hs : Framing.Splits sizes (buildHttpRequest method host path body [] true)) :
    Framing.receive sizes (buildHttpRequest method host path body [] true) =
      .request method path (request method host path body).head body := by
  rw [← bytes_request] at hs ⊢
  exact h.wellFormed.receive hs

/-- There is no token in it. -/
theorem Sendable.bearer (h : Sendable method host path body) : bearer (request method host path body).head = none := by
  have hfind : find (Utf8.bytes "authorization:") ((request method host path body).head.map toLower) = none := by
    refine find_lines_none toLower_lineEnd (by decide) (by decide) (List.cons_ne_nil _ _) h.line.authorization ?_
    have hlength : find (Utf8.bytes "authorization:") ((lengthName ++ Json.dumpNat body.length).map toLower) =
        none := by
      have hsplit : (lengthName ++ Json.dumpNat body.length).map toLower =
          Utf8.bytes "content-length:" ++ 0x20 :: (Json.dumpNat body.length).map toLower := by
        rw [List.map_append]
        rfl
      rw [hsplit]
      refine find_append_cons_none (by decide) (List.cons_ne_nil _ _) (by decide) ?_
      exact (Plain.of_harmless fun b hb =>
        Plain.harmless_of_isNumeric (Json.isNumeric_of_isDigit (Json.dumpNat_digits _ b hb))).authorization
    unfold request
    dsimp only
    rcases requestFields_cases host body with ⟨-, hfields⟩ | ⟨-, hfields⟩
    · rw [hfields]
      simp only [List.mem_cons, List.not_mem_nil, or_false, forall_eq_or_imp, forall_eq]
      exact ⟨h.hostLine.authorization, plain_keepAlive.authorization⟩
    · rw [hfields, List.forall_mem_append, List.forall_mem_singleton]
      simp only [List.mem_cons, List.not_mem_nil, or_false, forall_eq_or_imp, forall_eq]
      exact ⟨⟨h.hostLine.authorization, plain_keepAlive.authorization, RestServer.plain_type.authorization⟩, hlength⟩
  rw [Server.bearer, headerValue, hfind]
  rfl

/-- **What is done with it**: it is routed with its method, its path and its body, if no
token is configured or it is a health probe, and refused otherwise. -/
theorem handleClient_buildHttpRequest {F : Type} (s : RestServer F) (h : Sendable method host path body)
    {sizes : List ℕ} (hs : Framing.Splits sizes (buildHttpRequest method host path body [] true)) :
    s.handleClient sizes (buildHttpRequest method host path body [] true) =
      if s.apiToken = [] ∨ cleanPath path = Utf8.bytes "/v1/health" then .routed method path body
      else .refused ⟨401, "unauthorized"⟩ := by
  rw [Framing.handleClient_eq_receive, receive_buildHttpRequest h hs]
  dsimp only
  unfold RestServer.checkAuth
  rw [h.bearer]
  by_cases htoken : s.apiToken = []
  · rw [if_pos htoken, if_pos (.inl htoken)]
  · rw [if_neg htoken]
    by_cases hpath : cleanPath path = Utf8.bytes "/v1/health"
    · rw [if_pos hpath, if_pos (.inr hpath)]
    · rw [if_neg hpath, if_neg (not_or.mpr ⟨htoken, hpath⟩)]

end Sent

end HttpClient
end Provider
end Amind
