/-
# The two ports

A client sends bytes to the REST port, or to the port of the web interface, which
forwards a request for the API to the REST port as one of its own, with the
configured token. The REST port reads until the head of the request is there, and
the rest of its body if there is more to come, and looks for a token before it
routes: it takes the first `authorization:` anywhere in the head.

`guarded_iff` says when a request is routed only if it carries an accepted token
in an Authorization header: at the REST port, unless such a token stands behind an
`authorization:` in some other place; at the other port, unless its line is for the
API and gets through with the headers of the web interface (`GetsThrough`), as plain
ones do (`getsThrough_of_plain`).
-/
import Amind.Auth.Revocation
import Amind.Lib.Search

namespace Amind
namespace Server

open Amind.Core Amind.Auth Amind.Search

/-! ### Heads -/

/-- The end of a line. -/
def CRLF : Text := [0x0D, 0x0A]

/-- The end of a head. -/
def blankLine : Text := CRLF ++ CRLF

def toLower (b : UInt8) : UInt8 := if 0x41 ≤ b ∧ b ≤ 0x5A then b + 0x20 else b

/-- What stands behind the first place that has a name, up to the end of its line. -/
def headerValue (headers name : Text) : Option Text :=
  (find name (headers.map toLower)).map fun pos =>
    upTo CRLF ((headers.drop (pos + name.length)).dropWhile (· = 0x20))

/-- The method and the path of a request. A line without a blank is both. -/
def requestLine (request : Text) : Text × Text :=
  let line := upTo CRLF request
  match find [0x20] line with
  | some sp1 => (line.take sp1, upTo [0x20] (line.drop (sp1 + 1)))
  | none => (line, line)

/-- A path without its query. -/
def cleanPath (path : Text) : Text := upTo [0x3F] path

/-- An error that is answered. -/
structure Refusal where
  status : ℕ
  message : String
  deriving DecidableEq, Repr

def MAX_BODY_SIZE : ℕ := 16 * 1024 * 1024

/-- How long the body is said to be. -/
def contentLength (headers : Text) : Except Refusal ℕ :=
  match headerValue headers (Utf8.bytes "content-length:") with
  | none => .ok 0
  | some v =>
    match stoull v with
    | none => .error ⟨400, "invalid Content-Length"⟩
    | some n => if MAX_BODY_SIZE < n.toNat then .error ⟨413, "request body too large"⟩ else .ok n.toNat

/-- The token of an authorization. -/
def bearerOf (value : Text) : Option Text :=
  if value.length ≤ 7 ∨ value.take 7 ≠ Utf8.bytes "Bearer " then none else some (value.drop 7)

/-- The token of a head: of the first authorization in it. -/
def bearer (headers : Text) : Option Text := (headerValue headers (Utf8.bytes "authorization:")).bind bearerOf

/-- Two texts of one length are compared to the end. -/
def constantTimeEq (a b : Text) : Bool :=
  a.length = b.length && (List.zipWith (· ^^^ ·) a b).foldl (· ||| ·) 0 = 0

/-- Every difference is collected, so the texts are the same if nothing was. -/
theorem constantTimeEq_iff {a b : Text} : constantTimeEq a b = true ↔ a = b := by
  have hfold : ∀ (a b : Text) (acc : UInt8), a.length = b.length →
      ((List.zipWith (· ^^^ ·) a b).foldl (· ||| ·) acc = 0 ↔ acc = 0 ∧ a = b) := by
    intro a
    induction a with
    | nil =>
      intro b acc hlen
      obtain rfl := List.length_eq_zero_iff.mp hlen.symm
      simp
    | cons x a ih =>
      intro b acc hlen
      cases b with
      | nil => cases hlen
      | cons y b =>
        rw [List.zipWith_cons_cons, List.foldl_cons, ih b _ (Nat.succ.inj hlen), UInt8.or_eq_zero_iff,
          UInt8.xor_eq_zero_iff, List.cons.injEq, and_assoc]
  unfold constantTimeEq
  rw [Bool.and_eq_true, decide_eq_true_iff, decide_eq_true_iff]
  constructor
  · rintro ⟨hlen, hzero⟩
    exact ((hfold a b 0 hlen).mp hzero).2
  · rintro rfl
    exact ⟨rfl, (hfold a a 0 rfl).mpr ⟨rfl, rfl⟩⟩

/-! ### The REST port -/

/-- What is done with a connection: it is closed, a request is refused, or it is
routed. -/
inductive Outcome
  | closed
  | refused (e : Refusal)
  | routed (method path body : Text)
  deriving DecidableEq

structure RestServer (F : Type) where
  apiToken : Text
  authManager : Authority F
  sha256Hex : Text → Utf8Text

/-- Read until the head is there or too large. `sizes` are how much each read may
return; none returns more than it was asked for. -/
def readHead : List ℕ → Text → Text → Option (Text × List ℕ × Text)
  | [], _, _ => none
  | n :: sizes, sent, request =>
    let data := sent.take (min n 8192)
    let request := request ++ data
    if data = [] then none
    else if (find blankLine request).isSome ∨ 64 * 1024 < request.length then
      some (request, sizes, sent.drop data.length)
    else readHead sizes (sent.drop data.length) request

/-- Read what is missing of the body. -/
def readBody : List ℕ → ℕ → Text → Text → Text
  | [], _, _, request => request
  | n :: sizes, missing, sent, request =>
    let data := sent.take (min n (min 8192 missing))
    if data = [] then request
    else readBody sizes (missing - data.length) (sent.drop data.length) (request ++ data)

namespace RestServer

variable {F : Type} (s : RestServer F)

/-- The token is the configured one, or one of the keys. -/
def accepts (token : Text) : Bool := constantTimeEq token s.apiToken || s.authManager.validateKey s.sha256Hex token

def checkAuth (headers path : Text) : Option Refusal :=
  if s.apiToken = [] then none
  else if cleanPath path = Utf8.bytes "/v1/health" then none
  else
    match bearer headers with
    | none => some ⟨401, "unauthorized"⟩
    | some token => if s.accepts token then none else some ⟨401, "unauthorized"⟩

/-- Serve a connection on which `sent` arrives. -/
def handleClient (sizes : List ℕ) (sent : Text) : Outcome :=
  match readHead sizes sent [] with
  | none => .closed
  | some (request, sizes, sent) =>
    match find blankLine request with
    | none => .closed
    | some headerEnd =>
      match contentLength (request.take headerEnd) with
      | .error e => .refused e
      | .ok n =>
        let request := readBody sizes (n - (request.length - (headerEnd + 4))) sent request
        match s.checkAuth (request.take headerEnd) (requestLine request).2 with
        | some e => .refused e
        | none => .routed (requestLine request).1 (requestLine request).2 (request.drop (headerEnd + 4))

end RestServer

/-! ### What is read -/

theorem blankLine_ne_nil : blankLine ≠ [] := List.cons_ne_nil _ _

theorem CRLF_ne_nil : CRLF ≠ [] := List.cons_ne_nil _ _

/-- No end of it is a start of it. -/
theorem CRLF_ends (d : ℕ) (hd : 0 < d) (hlt : d < CRLF.length) : ¬ CRLF.drop d <+: CRLF := by
  obtain rfl : d = 1 := by
    have hlen : CRLF.length = 2 := rfl
    omega
  decide

/-- What is taken is behind what was read, in front of what is left. -/
theorem append_taken (request sent : Text) (k : ℕ) :
    request ++ sent.take k ++ sent.drop (sent.take k).length = request ++ sent := by
  have hprefix : sent.take k ++ sent.drop (sent.take k).length = sent :=
    (List.prefix_append_drop (List.take_prefix _ _)).symm
  rw [List.append_assoc, hprefix]

/-- What is read is the start of what was sent, with a limit to its length. -/
theorem readHead_start : ∀ (sizes : List ℕ) (sent request : Text) {r rest : Text} {ns : List ℕ},
    readHead sizes sent request = some (r, ns, rest) → request.length ≤ 64 * 1024 →
      r ++ rest = request ++ sent ∧ r.length ≤ 64 * 1024 + 8192
  | [], _, _, _, _, _, h, _ => by cases h
  | n :: sizes, sent, request, r, rest, ns, h, hlen => by
    rw [readHead] at h
    have hdata : (sent.take (min n 8192)).length ≤ 8192 := by
      rw [List.length_take]
      omega
    have hsplit := append_taken request sent (min n 8192)
    split at h
    · cases h
    · split at h
      · obtain ⟨rfl, hrest⟩ := Prod.mk.inj (Option.some.inj h)
        obtain ⟨-, rfl⟩ := Prod.mk.inj hrest
        refine ⟨hsplit, ?_⟩
        rw [List.length_append]
        omega
      · next hlong =>
        obtain ⟨happend, hr⟩ := readHead_start sizes _ _ h (Nat.le_of_not_lt fun hl => hlong (.inr hl))
        exact ⟨happend.trans hsplit, hr⟩

/-- Reading the body only adds to the request what was sent. -/
theorem readBody_start : ∀ (sizes : List ℕ) (missing : ℕ) (sent request : Text),
    request <+: readBody sizes missing sent request ∧ readBody sizes missing sent request <+: request ++ sent
  | [], _, _, _ => ⟨List.prefix_rfl, List.prefix_append _ _⟩
  | n :: sizes, missing, sent, request => by
    rw [readBody]
    split
    · exact ⟨List.prefix_rfl, List.prefix_append _ _⟩
    · have ih := readBody_start sizes (missing - (sent.take (min n (min 8192 missing))).length)
        (sent.drop (sent.take (min n (min 8192 missing))).length) (request ++ sent.take (min n (min 8192 missing)))
      have hsplit := append_taken request sent (min n (min 8192 missing))
      exact ⟨(List.prefix_append _ _).trans ih.1, hsplit ▸ ih.2⟩

/-- Read in full, a head that is not too large is there in time. -/
theorem readHead_replicate {i : ℕ} : ∀ (n : ℕ) (sent request : Text), find blankLine (request ++ sent) = some i →
    request.length < i + 4 → i + 4 ≤ request.length + 8192 * n → request.length + 8192 * n ≤ 64 * 1024 + 8192 →
    ∃ r ns rest, readHead (List.replicate n 8192) sent request = some (r, ns, rest) ∧ find blankLine r = some i ∧
      r <+: request ++ sent
  | 0, _, _, _, hlt, hle, _ => by omega
  | n + 1, sent, request, hfind, hlt, hle, hlimit => by
    have htotal := length_of_find blankLine_ne_nil hfind
    rw [List.length_append, show blankLine.length = 4 from rfl] at htotal
    have hdata : (sent.take 8192).length = min 8192 sent.length := List.length_take
    have hne : sent.take 8192 ≠ [] := by
      intro hnil
      rw [hnil, List.length_nil] at hdata
      omega
    have hpre : request ++ sent.take 8192 <+: request ++ sent :=
      (List.prefix_append_right_inj request).mpr (List.take_prefix _ _)
    have hlen : (request ++ sent.take 8192).length = request.length + min 8192 sent.length := by
      rw [List.length_append, hdata]
    rw [List.replicate_succ, readHead, Nat.min_self]
    rw [if_neg hne]
    by_cases hin : i + 4 ≤ (request ++ sent.take 8192).length
    · have hfound : find blankLine (request ++ sent.take 8192) = some i := by
        rw [List.prefix_iff_eq_take.mp hpre]
        exact find_take blankLine_ne_nil hfind hin
      rw [if_pos (.inl (by rw [hfound]; rfl))]
      exact ⟨_, _, _, rfl, hfound, hpre⟩
    · -- nothing of the end of the head is there, so the whole buffer was filled
      have hnone : find blankLine (request ++ sent.take 8192) = none := by
        cases h : find blankLine (request ++ sent.take 8192) with
        | none => rfl
        | some j =>
          have hj := find_longer blankLine_ne_nil h hpre
          rw [hfind] at hj
          have := length_of_find blankLine_ne_nil h
          rw [show blankLine.length = 4 from rfl, ← Option.some.inj hj] at this
          omega
      have hfull : (sent.take 8192).length = 8192 := by omega
      have hsplit : request ++ sent.take 8192 ++ sent.drop 8192 = request ++ sent := by
        rw [List.append_assoc, List.take_append_drop]
      rw [if_neg (by rw [hnone]; simp; omega), hfull]
      obtain ⟨r, ns, rest, hr, hf, hp⟩ := readHead_replicate n (sent.drop 8192) (request ++ sent.take 8192)
        (by rw [hsplit]; exact hfind) (by omega) (by omega) (by omega)
      exact ⟨r, ns, rest, hr, hf, hsplit ▸ hp⟩

/-! ### What is routed -/

namespace RestServer

variable {F : Type} (s : RestServer F)

/-- The request is no health probe and gets through: its head ends and is not too
large, it says no impossible length, and the first authorization in the head is
accepted. -/
structure Passes (sent : Text) : Prop where
  headed : ∃ i, find blankLine sent = some i ∧ i + 4 ≤ 64 * 1024 + 8192
  length : (contentLength (upTo blankLine sent)).isOk = true
  path : cleanPath (requestLine sent).2 ≠ Utf8.bytes "/v1/health"
  token : ∃ token, bearer (upTo blankLine sent) = some token ∧ s.accepts token = true

variable {s} {sent : Text}

/-- The line of a request is within its head. -/
theorem requestLine_of_prefix {r t : Text} {i : ℕ} (hr : find blankLine r = some i) (ht : r <+: t) :
    requestLine t = requestLine r := by
  have hstart : CRLF <+: r.drop i := (List.prefix_append CRLF CRLF).trans (prefix_of_find hr)
  obtain ⟨j, -, hj⟩ := find_of_drop hstart
  have hlen := length_of_find CRLF_ne_nil hj
  have hline : upTo CRLF t = upTo CRLF r := by
    rw [upTo_eq_take hj, upTo_eq_take (find_longer CRLF_ne_nil hj ht), List.prefix_iff_eq_take.mp ht, List.take_take,
      Nat.min_eq_left (by omega)]
  rw [requestLine, hline]
  rfl

theorem checkAuth_eq_none (ht : s.apiToken ≠ []) {headers path : Text} : s.checkAuth headers path = none ↔
    cleanPath path = Utf8.bytes "/v1/health" ∨ ∃ token, bearer headers = some token ∧ s.accepts token = true := by
  rw [checkAuth, if_neg ht]
  by_cases hp : cleanPath path = Utf8.bytes "/v1/health"
  · simp [hp]
  · rw [if_neg hp]
    cases hb : bearer headers with
    | none => simp [hp]
    | some token => cases ha : s.accepts token <;> simp [hp, ha]

/-- What is done once a head was read, which depends on what was sent alone. -/
theorem handleClient_of_readHead {sizes ns : List ℕ} {r rest : Text} {i : ℕ}
    (hr : readHead sizes sent [] = some (r, ns, rest)) (hpre : r <+: sent) (hf : find blankLine r = some i) :
    find blankLine sent = some i ∧ ∃ body, s.handleClient sizes sent =
      match contentLength (upTo blankLine sent) with
      | .error e => .refused e
      | .ok _ =>
        match s.checkAuth (upTo blankLine sent) (requestLine sent).2 with
        | some e => .refused e
        | none => .routed (requestLine sent).1 (requestLine sent).2 body := by
  have hsent := find_longer blankLine_ne_nil hf hpre
  have hlen := length_of_find blankLine_ne_nil hf
  have htake : ∀ {t : Text}, r <+: t → t.take i = r.take i := by
    intro t ht
    rw [List.prefix_iff_eq_take.mp ht, List.take_take, Nat.min_eq_left (by omega)]
  refine ⟨hsent, ?_⟩
  rw [upTo_eq_take hsent, requestLine_of_prefix hf hpre, htake hpre]
  unfold handleClient
  rw [hr]
  dsimp only
  rw [hf]
  dsimp only
  cases hc : contentLength (r.take i) with
  | error e => exact ⟨[], rfl⟩
  | ok n =>
    dsimp only
    have hbody := (readBody_start ns (n - (r.length - (i + 4))) rest r).1
    rw [htake hbody, requestLine_of_prefix hf hbody]
    exact ⟨_, rfl⟩

/-- What is routed and no health probe passes. -/
theorem passes_of_routed (ht : s.apiToken ≠ []) {sizes : List ℕ} {method path body : Text}
    (h : s.handleClient sizes sent = .routed method path body) (hp : cleanPath path ≠ Utf8.bytes "/v1/health") :
    s.Passes sent := by
  cases hr : readHead sizes sent [] with
  | none =>
    rw [handleClient, hr] at h
    cases h
  | some x =>
    obtain ⟨r, ns, rest⟩ := x
    obtain ⟨happend, hlen⟩ := readHead_start sizes sent [] hr (Nat.zero_le _)
    cases hf : find blankLine r with
    | none =>
      rw [handleClient, hr] at h
      dsimp only at h
      rw [hf] at h
      cases h
    | some i =>
      obtain ⟨hsent, body', heq⟩ := s.handleClient_of_readHead hr ⟨rest, happend⟩ hf
      have hend := length_of_find blankLine_ne_nil hf
      rw [h] at heq
      cases hc : contentLength (upTo blankLine sent) with
      | error e =>
        rw [hc] at heq
        cases heq
      | ok n =>
        rw [hc] at heq
        dsimp only at heq
        cases ha : s.checkAuth (upTo blankLine sent) (requestLine sent).2 with
        | some e =>
          rw [ha] at heq
          cases heq
        | none =>
          rw [ha] at heq
          obtain ⟨-, hpath, -⟩ := Outcome.routed.inj heq
          refine ⟨⟨i, hsent, le_trans hend hlen⟩, by rw [hc]; rfl, hpath ▸ hp, ?_⟩
          exact ((checkAuth_eq_none ht).mp ha).resolve_left (hpath ▸ hp)

/-- What passes is routed, if it is read as it comes. -/
theorem Passes.routed (ht : s.apiToken ≠ []) (h : s.Passes sent) : ∃ sizes body,
    s.handleClient sizes sent = .routed (requestLine sent).1 (requestLine sent).2 body := by
  obtain ⟨i, hi, hlimit⟩ := h.headed
  obtain ⟨r, ns, rest, hr, hf, hpre⟩ := readHead_replicate 9 sent [] hi (by simp) (by simpa using hlimit) (by simp)
  obtain ⟨-, body, heq⟩ := s.handleClient_of_readHead hr hpre hf
  refine ⟨List.replicate 9 8192, body, heq.trans ?_⟩
  cases hc : contentLength (upTo blankLine sent) with
  | error e =>
    have hlength := h.length
    rw [hc] at hlength
    cases hlength
  | ok n =>
    dsimp only
    rw [(checkAuth_eq_none ht).mpr (.inr h.token)]

end RestServer

/-! ### What a request carries -/

/-- The lines behind the first. -/
def headerLines (head : Text) : List Text :=
  head.tails.filterMap fun t => if CRLF <+: t then some (upTo CRLF (t.drop 2)) else none

/-- The token of an Authorization header. -/
def lineBearer (line : Text) : Option Text :=
  if (line.take 14).map toLower = Utf8.bytes "authorization:" then bearerOf ((line.drop 14).dropWhile (· = 0x20))
  else none

/-- The text is at the start of a line behind the first. -/
def StartsLine (head : Text) (pos : ℕ) : Prop := 2 ≤ pos ∧ CRLF <+: head.drop (pos - 2)

namespace RestServer

variable {F : Type} (s : RestServer F)

/-- A header of what a client sent is an authorization with an accepted token. -/
def Carries (sent : Text) : Prop :=
  ∃ line ∈ headerLines (upTo blankLine sent), ∃ token, lineBearer line = some token ∧ s.accepts token = true

instance (sent : Text) : Decidable (s.Carries sent) :=
  decidable_of_iff (((headerLines (upTo blankLine sent)).any fun line => (lineBearer line).any s.accepts) = true) (by
    simp only [List.any_eq_true, Option.any_eq_true, Carries])

/-- What the client sent passes for the token behind an `authorization:` that is
no header, while no header has an accepted one. -/
structure Strays (sent : Text) : Prop where
  passes : s.Passes sent
  misplaced : ∀ pos, find (Utf8.bytes "authorization:") ((upTo blankLine sent).map toLower) = some pos →
    ¬ StartsLine (upTo blankLine sent) pos
  bare : ¬ s.Carries sent

variable {s} {sent : Text}

theorem mem_headerLines {head : Text} {pos : ℕ} (h : StartsLine head pos) :
    upTo CRLF (head.drop pos) ∈ headerLines head := by
  obtain ⟨hpos, hstart⟩ := h
  refine List.mem_filterMap.mpr ⟨head.drop (pos - 2), (List.mem_tails _ _).mpr (List.drop_suffix _ _), ?_⟩
  rw [if_pos hstart, List.drop_drop, Nat.sub_add_cancel hpos]

/-- A name has no line end in it, whatever its case. -/
theorem no_return {name front : Text} (hname : ∀ b ∈ name, b ≠ 0x0D) (h : front.map toLower = name) :
    ∀ b ∈ front, CRLF.head? ≠ some b := by
  intro b hb heq
  obtain rfl : 0x0D = b := Option.some.inj heq
  exact hname (toLower 0x0D) (h ▸ List.mem_map_of_mem hb) (by decide)

theorem dropWhile_upTo (t : Text) : (upTo CRLF t).dropWhile (· = 0x20) = upTo CRLF (t.dropWhile (· = 0x20)) := by
  induction t with
  | nil => rfl
  | cons b t ih =>
    by_cases hb : b = 0x20
    · rw [hb, upTo_cons_of_ne (by decide) CRLF_ne_nil, List.dropWhile_cons_of_pos (by decide),
        List.dropWhile_cons_of_pos (by decide), ih]
    · rw [List.dropWhile_cons_of_neg (by simpa using hb), upTo_cons]
      split
      · rfl
      · rw [List.dropWhile_cons_of_neg (by simpa using hb)]

/-- An authorization at the start of a line is that of a header. -/
theorem carries_of_startsLine {token : Text} {pos : ℕ} (hb : bearer (upTo blankLine sent) = some token)
    (ha : s.accepts token = true)
    (hpos : find (Utf8.bytes "authorization:") ((upTo blankLine sent).map toLower) = some pos)
    (hs : StartsLine (upTo blankLine sent) pos) : s.Carries sent := by
  obtain ⟨back, hback⟩ : Utf8.bytes "authorization:" <+: ((upTo blankLine sent).drop pos).map toLower := by
    rw [List.map_drop]
    exact prefix_of_find hpos
  obtain ⟨name, value, hsplit, hname, -⟩ := List.map_eq_append_iff.mp hback.symm
  have hlen : name.length = 14 := by
    rw [← List.length_map toLower, hname]
    rfl
  have hreturn : ∀ b ∈ Utf8.bytes "authorization:", b ≠ 0x0D := fun b hb => by
    revert b
    decide +kernel
  refine ⟨_, mem_headerLines hs, token, ?_, ha⟩
  rw [bearer, headerValue, hpos, Option.map_some, Option.bind_some, ← List.drop_drop,
    show (Utf8.bytes "authorization:").length = 14 from rfl, hsplit, List.drop_left' hlen] at hb
  rw [hsplit, upTo_append (no_return hreturn hname) CRLF_ne_nil, lineBearer, List.take_left' hlen, if_pos hname,
    List.drop_left' hlen, dropWhile_upTo]
  exact hb

end RestServer

/-! ### The port of the web interface -/

structure WebServer where
  apiPort : ℤ
  apiToken : Text

/-- What is done with a connection of the web interface. -/
inductive WebOutcome
  | closed
  | file (path : Text)
  /-- The bytes that are sent to the REST port. -/
  | forwarded (request : Text)
  deriving DecidableEq

namespace WebServer

variable (w : WebServer)

/-- The request that is sent to the REST port for one of the API. The headers of the
client are not among what is sent on. -/
def proxyToApi (method path body : Text) : Text :=
  let authHeader := if w.apiToken ≠ [] then Utf8.bytes "Authorization: Bearer " ++ w.apiToken ++ CRLF else []
  method ++ Utf8.bytes " " ++ path ++ Utf8.bytes " HTTP/1.1\r\n" ++
    Utf8.bytes "Host: 127.0.0.1:" ++ Json.dumpInt w.apiPort ++ CRLF ++
    Utf8.bytes "Content-Type: application/json\r\n" ++
    authHeader ++
    Utf8.bytes "Content-Length: " ++ Json.dumpNat body.length ++ CRLF ++
    Utf8.bytes "Connection: close\r\n\r\n" ++
    body

/-- The line of the request that is sent on. -/
def forwardedLine (method path : Text) : Text := method ++ 0x20 :: path ++ 0x20 :: Utf8.bytes "HTTP/1.1"

/-- The headers that are sent on, for a body of a length. They are the server's own. -/
def headers (length : ℕ) : Text :=
  Utf8.bytes "Host: 127.0.0.1:" ++ Json.dumpInt w.apiPort ++ CRLF ++
    (Utf8.bytes "Content-Type: application/json" ++ CRLF ++
      (Utf8.bytes "Authorization:" ++ (Utf8.bytes " Bearer " ++ w.apiToken) ++ CRLF ++
        (Utf8.bytes "Content-Length:" ++ (0x20 :: Json.dumpNat length) ++ CRLF ++ Utf8.bytes "Connection: close")))

/-- What the REST port takes for them, which is less if the token has a blank line
in it. -/
def ownHeaders (length : ℕ) : Text := upTo blankLine (w.headers length ++ blankLine)

/-- The body of what was read, if the head of it ends. -/
def bodyOf (request : Text) : Text :=
  match find blankLine request with
  | some bodyStart => request.drop (bodyStart + 4)
  | none => []

/-- Serve a connection of which one read returns at most `n` bytes. -/
def handleClient (n : ℕ) (sent : Text) : WebOutcome :=
  let request := sent.take (min n 65535)
  if request = [] then .closed
  else
    match find CRLF request with
    | none => .closed
    | some _ =>
      if Utf8.bytes "/api/" <+: (requestLine request).2 then
        .forwarded (w.proxyToApi (requestLine request).1 ((requestLine request).2.drop 4) (bodyOf request))
      else .file (requestLine request).2

end WebServer

/-! ### Who gets through -/

namespace RestServer

variable {F : Type} (s : RestServer F)

/-- The web interface is started with the same token. -/
def web (apiPort : ℤ) : WebServer := ⟨apiPort, s.apiToken⟩

/-- However what is sent to the REST port arrives there, what is routed and no
health probe carries an accepted token. -/
def Guarded (sent : Text) : Prop :=
  ∀ sizes method path body, s.handleClient sizes sent = .routed method path body →
    cleanPath path ≠ Utf8.bytes "/v1/health" → s.Carries sent

/-- Whatever of what is sent to the web interface is forwarded, and however it
arrives, what is routed and no health probe was sent with an accepted token. -/
def WebGuarded (apiPort : ℤ) (sent : Text) : Prop :=
  ∀ n request, (s.web apiPort).handleClient n sent = .forwarded request →
    ∀ sizes method path body, s.handleClient sizes request = .routed method path body →
      cleanPath path ≠ Utf8.bytes "/v1/health" → s.Carries sent

/-- A request for the API gets through with the headers of the web interface: it is
no health probe and not too long, and the length and the token that the REST port
finds are right, in the method and the path of the client or, where these have none,
in the headers. -/
structure GetsThrough (apiPort : ℤ) (method path : Text) (n : ℕ) : Prop where
  noProbe : cleanPath path ≠ Utf8.bytes "/v1/health"
  size : (WebServer.forwardedLine method path).length + ((s.web apiPort).ownHeaders n).length + 6 ≤ 64 * 1024 + 8192
  length : ∀ v, (headerValue (WebServer.forwardedLine method path) (Utf8.bytes "content-length:")).or
    (headerValue ((s.web apiPort).ownHeaders n) (Utf8.bytes "content-length:")) = some v →
      ∃ n, stoull v = some n ∧ n.toNat ≤ MAX_BODY_SIZE
  token : ∃ v, (headerValue (WebServer.forwardedLine method path) (Utf8.bytes "authorization:")).or
    (headerValue ((s.web apiPort).ownHeaders n) (Utf8.bytes "authorization:")) = some v ∧
      ∃ token, bearerOf v = some token ∧ s.accepts token = true

/-- What is sent to the web interface without an accepted token has a line for the
API that gets through. -/
structure Slips (apiPort : ℤ) (sent : Text) : Prop where
  forwarded : ∃ n ≤ 65535, (find CRLF (sent.take n)).isSome = true ∧
    Utf8.bytes "/api/" <+: (requestLine (sent.take n)).2 ∧
    s.GetsThrough apiPort (requestLine (sent.take n)).1 ((requestLine (sent.take n)).2.drop 4)
      (WebServer.bodyOf (sent.take n)).length
  bare : ¬ s.Carries sent

/-! ### Forwarded requests -/

/-- The text has no line end and none of the names the REST port looks for. -/
structure Plain (t : Text) : Prop where
  line : 0x0D ∉ t
  authorization : find (Utf8.bytes "authorization:") (t.map toLower) = none
  contentLength : find (Utf8.bytes "content-length:") (t.map toLower) = none

/-- The text ends at the first blank line behind it. -/
structure IsHead (head : Text) : Prop where
  starts : ∃ b, head.head? = some b ∧ b ≠ 0x0D
  ends : ∀ t, upTo blankLine (head ++ blankLine ++ t) = head

theorem starts_of_line {line : Text} (hne : line ≠ []) (h : 0x0D ∉ line) (t : Text) :
    ∃ b, (line ++ t).head? = some b ∧ b ≠ 0x0D := by
  obtain ⟨b, line, rfl⟩ := List.exists_cons_of_ne_nil hne
  exact ⟨b, rfl, fun hb => h (hb ▸ List.mem_cons_self)⟩

theorem upTo_blankLine {line : Text} (h : 0x0D ∉ line) (t : Text) :
    upTo blankLine (line ++ t) = line ++ upTo blankLine t := by
  refine upTo_append (fun b hb heq => ?_) blankLine_ne_nil
  exact h (Option.some.inj heq ▸ hb)

theorem IsHead.of_line {line : Text} (hne : line ≠ []) (h : 0x0D ∉ line) : IsHead line where
  starts := by
    have hs := starts_of_line hne h []
    rwa [List.append_nil] at hs
  ends := fun t => by
    rw [List.append_assoc, upTo_blankLine h, upTo_eq_take (find_of_starts (List.prefix_append _ _))]
    exact List.append_nil line

/-- A line is put before a head. -/
theorem IsHead.cons {line head : Text} (hh : IsHead head) (hne : line ≠ []) (h : 0x0D ∉ line) :
    IsHead (line ++ CRLF ++ head) where
  starts := by
    rw [List.append_assoc]
    exact starts_of_line hne h _
  ends := fun t => by
    have hnext : ¬ blankLine <+: 0x0D :: 0x0A :: (head ++ blankLine ++ t) := by
      rintro ⟨rest, hrest⟩
      have htail : 0x0D :: 0x0A :: rest = head ++ blankLine ++ t := (List.cons.inj (List.cons.inj hrest).2).2
      obtain ⟨b, hb, hne⟩ := hh.starts
      obtain ⟨head, rfl⟩ := List.head?_eq_some_iff.mp hb
      exact hne (List.cons.inj htail).1.symm
    have hsplit : line ++ CRLF ++ head ++ blankLine ++ t = line ++ 0x0D :: 0x0A :: (head ++ blankLine ++ t) := by
      simp [CRLF]
    rw [hsplit, upTo_blankLine h, upTo_cons, if_neg hnext, upTo_cons_of_ne (by decide) blankLine_ne_nil, hh.ends]
    simp [CRLF]

/-- The blank line behind a head is the first. -/
theorem IsHead.find {head : Text} (h : IsHead head) (t : Text) :
    find blankLine (head ++ blankLine ++ t) = some head.length := by
  have hend : blankLine <+: (head ++ blankLine ++ t).drop head.length := by
    rw [List.append_assoc, List.drop_left]
    exact List.prefix_append _ _
  obtain ⟨i, hi, hf⟩ := find_of_drop hend
  have hlen := congrArg List.length (upTo_eq_take hf)
  rw [h.ends, List.length_take, List.length_append, List.length_append] at hlen
  rw [hf]
  congr 1
  omega

/-- The name is looked for in a line, and then behind it. -/
theorem headerValue_append {name : Text} (hn : name ≠ []) (hreturn : 0x0D ∉ name) (hfeed : 0x0A ∉ name)
    (line s : Text) :
    headerValue (line ++ CRLF ++ s) name = (headerValue line name).or (headerValue s name) := by
  have hlower : (line ++ CRLF ++ s).map toLower = line.map toLower ++ 0x0D :: ([] ++ 0x0A :: s.map toLower) := by
    rw [List.append_assoc, List.map_append]
    rfl
  have hnil : find name ([] : Text) = none := if_neg hn
  unfold headerValue
  cases hline : find name (line.map toLower) with
  | none =>
    rw [hlower, find_append_cons hreturn hn _ hline, find_append_cons hfeed hn _ hnil, Option.map_map, Option.map_map,
      Option.map_none, Option.none_or]
    congr 1
    funext pos
    have hdrop : (line ++ CRLF ++ s).drop (pos + ([] : Text).length + 1 + ((line.map toLower).length + 1) + name.length) =
        s.drop (pos + name.length) := by
      have hlen : (line ++ CRLF).length = (line.map toLower).length + 2 := by
        rw [List.length_append, List.length_map]
        rfl
      rw [List.drop_append, List.drop_eq_nil_of_le (by omega), List.nil_append]
      congr 1
      simp only [List.length_nil]
      omega
    show upTo CRLF (List.dropWhile _ (List.drop _ _)) = _
    rw [← hdrop]
    rfl
  | some pos =>
    have hlen := length_of_find hn hline
    rw [List.length_map] at hlen
    have hlonger : find name ((line ++ CRLF ++ s).map toLower) = some pos :=
      find_longer hn hline (hlower ▸ List.prefix_append _ _)
    rw [hlonger, Option.map_some, Option.map_some, Option.some_or, ← dropWhile_upTo, ← dropWhile_upTo,
      List.append_assoc,
      List.drop_append_of_le_length hlen, upTo_append_of_starts CRLF_ne_nil CRLF_ends (List.prefix_append CRLF s)]

/-- The line that starts with it has its value. -/
theorem headerValue_self {name front value : Text} (h : front.map toLower = name) (hv : 0x0D ∉ value) (s : Text) :
    headerValue (front ++ value ++ CRLF ++ s) name = some (value.dropWhile (· = 0x20)) := by
  have hfind : find name ((front ++ value ++ CRLF ++ s).map toLower) = some 0 := by
    refine find_of_starts ⟨(value ++ CRLF ++ s).map toLower, ?_⟩
    rw [← h, ← List.map_append, List.append_assoc, List.append_assoc, List.append_assoc]
  have hlen : name.length = front.length := by rw [← h, List.length_map]
  have hdrop : (front ++ value ++ CRLF ++ s).drop (0 + name.length) = value ++ (CRLF ++ s) := by
    rw [Nat.zero_add, hlen, List.append_assoc, List.append_assoc, List.drop_left]
  have hvalue : ∀ b ∈ value, CRLF.head? ≠ some b := by
    intro b hb heq
    exact hv (Option.some.inj heq ▸ hb)
  have hend : upTo CRLF (CRLF ++ s) = [] := upTo_eq_take (find_of_starts (List.prefix_append _ _))
  rw [headerValue, hfind, Option.map_some, hdrop, ← dropWhile_upTo, upTo_append hvalue CRLF_ne_nil, hend,
    List.append_nil]

namespace Plain

/-- The two names have no line end. -/
theorem names : 0x0D ∉ Utf8.bytes "authorization:" ∧ 0x0A ∉ Utf8.bytes "authorization:" ∧
    0x0D ∉ Utf8.bytes "content-length:" ∧ 0x0A ∉ Utf8.bytes "content-length:" := by decide

theorem names_ne_nil : Utf8.bytes "authorization:" ≠ [] ∧ Utf8.bytes "content-length:" ≠ [] :=
  ⟨List.cons_ne_nil _ _, List.cons_ne_nil _ _⟩

/-- Plain texts with a blank between them are one. -/
theorem blank {t u : Text} (ht : Plain t) (hu : Plain u) : Plain (t ++ 0x20 :: u) where
  line := by
    have h : (0x0D : UInt8) ≠ 0x20 := by decide
    simp [ht.line, hu.line, h]
  authorization := by
    rw [List.map_append]
    exact find_append_cons_none (by decide) (List.cons_ne_nil _ _) ht.authorization hu.authorization
  contentLength := by
    rw [List.map_append]
    exact find_append_cons_none (by decide) (List.cons_ne_nil _ _) ht.contentLength hu.contentLength

/-- The byte is none a line end or one of the two names starts with. -/
def Harmless (b : UInt8) : Prop := b ≠ 0x0D ∧ toLower b ≠ 0x61 ∧ toLower b ≠ 0x63

instance (b : UInt8) : Decidable (Harmless b) := inferInstanceAs (Decidable (_ ∧ _))

theorem of_harmless {t : Text} (h : ∀ b ∈ t, Harmless b) : Plain t where
  line := fun hb => (h _ hb).1 rfl
  authorization := find_of_head_not_mem (x := 0x61) rfl fun hm => by
    obtain ⟨b, hb, he⟩ := List.mem_map.mp hm
    exact (h b hb).2.1 he
  contentLength := find_of_head_not_mem (x := 0x63) rfl fun hm => by
    obtain ⟨b, hb, he⟩ := List.mem_map.mp hm
    exact (h b hb).2.2 he

theorem of_all {t : Text} (h : (t.all fun b => Harmless b) = true) : Plain t :=
  of_harmless fun b hb => of_decide_eq_true (List.all_eq_true.mp h b hb)

theorem harmless_of_isNumeric {b : UInt8} (h : Json.isNumeric b = true) : Harmless b := by
  have hall : ∀ b : Fin 256, Json.isNumeric (.ofFin b) = true → Harmless (.ofFin b) := by decide +kernel
  exact hall b.toFin h

end Plain

theorem upTo_of_none {needle t : Text} (h : find needle t = none) : upTo needle t = t := by
  rw [upTo, h]

/-- Nothing is found in front of the first place. -/
theorem find_upTo {needle : Text} (hn : needle ≠ []) (t : Text) : find needle (upTo needle t) = none := by
  cases h : find needle t with
  | none => rw [upTo_of_none h, h]
  | some i =>
    rw [upTo_eq_take h]
    by_contra hne
    obtain ⟨j, hj⟩ := Option.ne_none_iff_exists'.mp hne
    have hlen := length_of_find hn hj
    have hpos := List.length_pos_of_ne_nil hn
    have hsame : some i = some j := h.symm.trans (find_longer hn hj (List.take_prefix i t))
    rw [List.length_take, ← Option.some.inj hsame] at hlen
    omega

/-- Nor in what stands within. -/
theorem find_of_infix {needle t u : Text} (h : find needle u = none) (ht : t <:+: u) : find needle t = none := by
  have hnone : ¬ (find needle t).isSome = true := by
    rw [isSome_find]
    intro hin
    have hu := isSome_find.mpr (hin.trans ht)
    rw [h] at hu
    cases hu
  exact Option.not_isSome_iff_eq_none.mp hnone

/-- The end of a line is found. -/
theorem find_lineEnd_of_none {line : Text} (h : find CRLF line = none) (rest : Text) :
    find CRLF (line ++ (CRLF ++ rest)) = some line.length := by
  have hupTo : upTo CRLF (line ++ (CRLF ++ rest)) = line :=
    (upTo_append_of_starts CRLF_ne_nil CRLF_ends (List.prefix_append CRLF rest)).trans (upTo_of_none h)
  have hthere : CRLF <+: (line ++ (CRLF ++ rest)).drop line.length := by
    rw [List.drop_left]
    exact List.prefix_append _ _
  obtain ⟨j, hj, hf⟩ := find_of_drop hthere
  have hlen := congrArg List.length ((upTo_eq_take hf).symm.trans hupTo)
  rw [List.length_take, List.length_append] at hlen
  rw [hf]
  congr 1
  omega

theorem find_none_of_no_return {line : Text} (h : 0x0D ∉ line) : find CRLF line = none := find_of_head_not_mem rfl h

theorem find_lineEnd {line : Text} (h : 0x0D ∉ line) (rest : Text) :
    find CRLF (line ++ (CRLF ++ rest)) = some line.length :=
  find_lineEnd_of_none (find_none_of_no_return h) rest

/-- A head goes on behind its first line. -/
theorem upTo_blankLine_line {t : Text} (ht : t.head? ≠ some 0x0D) : ∀ {line : Text}, find CRLF line = none →
    upTo blankLine (line ++ (CRLF ++ t)) = line ++ (CRLF ++ upTo blankLine t)
  | [], _ => by
    have hnext : ¬ blankLine <+: 0x0D :: 0x0A :: t := by
      rintro ⟨rest, hrest⟩
      exact ht ((List.cons.inj (List.cons.inj hrest).2).2 ▸ rfl)
    show upTo blankLine (0x0D :: 0x0A :: t) = 0x0D :: 0x0A :: upTo blankLine t
    rw [upTo_cons, if_neg hnext, upTo_cons_of_ne (by decide) blankLine_ne_nil]
  | b :: line, h => by
    have hnot : ¬ CRLF <+: b :: line := fun hp => by
      rw [find_of_starts hp] at h
      cases h
    have hstart : ¬ blankLine <+: b :: (line ++ (CRLF ++ t)) := by
      intro hp
      have hpair : CRLF <+: b :: (line ++ (CRLF ++ t)) := (List.prefix_append CRLF CRLF).trans hp
      cases line with
      | nil => exact absurd (List.cons_prefix_cons.mp (List.cons_prefix_cons.mp hpair).2).1 (by decide)
      | cons c line => exact hnot (List.prefix_of_prefix_length_le hpair ⟨CRLF ++ t, rfl⟩ (by simp [CRLF]))
    have htail : find CRLF line = none := find_of_infix h (List.suffix_cons b line).isInfix
    rw [List.cons_append, upTo_cons, if_neg hstart, upTo_blankLine_line ht htail, List.cons_append]

/-- The first line has the method and the path, with blanks behind them. -/
theorem requestLine_of_line {method path version : Text} (hm : 0x20 ∉ method) (hp : 0x20 ∉ path)
    (hline : find CRLF (method ++ 0x20 :: path ++ 0x20 :: version) = none) (rest : Text) :
    requestLine (method ++ 0x20 :: path ++ 0x20 :: version ++ (CRLF ++ rest)) = (method, path) := by
  have hfirst : upTo CRLF (method ++ 0x20 :: path ++ 0x20 :: version ++ (CRLF ++ rest)) =
      method ++ 0x20 :: (path ++ 0x20 :: version) := by
    rw [upTo_eq_take (find_lineEnd_of_none hline rest), List.take_left, List.append_assoc, List.cons_append]
  have hsecond : (method ++ 0x20 :: (path ++ 0x20 :: version)).drop (method.length + 1) = path ++ 0x20 :: version := by
    rw [← List.drop_drop, List.drop_left]
    rfl
  unfold requestLine
  rw [hfirst]
  dsimp only
  rw [find_singleton hm]
  dsimp only
  rw [List.take_left, hsecond, upTo_eq_take (find_singleton hp _), List.take_left]

theorem requestLine_of_parts {method path version : Text} (hm : 0x20 ∉ method) (hp : 0x20 ∉ path)
    (hline : 0x0D ∉ method ++ 0x20 :: path ++ 0x20 :: version) (rest : Text) :
    requestLine (method ++ 0x20 :: path ++ 0x20 :: version ++ (CRLF ++ rest)) = (method, path) :=
  requestLine_of_line hm hp (find_none_of_no_return hline) rest

/-- The parts of a line. -/
structure Parts (method path : Text) : Prop where
  noBlank : 0x20 ∉ method ∧ 0x20 ∉ path
  methodLine : find CRLF method = none
  pathLine : find CRLF path = none

theorem not_mem_upTo (x : UInt8) : ∀ t : Text, x ∉ upTo [x] t
  | [] => List.not_mem_nil
  | y :: t => by
    rw [upTo_cons]
    split
    · exact List.not_mem_nil
    · rename_i hstart
      rintro hx
      rcases List.mem_cons.mp hx with rfl | hx
      · exact hstart ⟨t, rfl⟩
      · exact not_mem_upTo x t hx

theorem upTo_isPrefix (needle t : Text) : upTo needle t <+: t := by
  unfold upTo
  split
  · exact List.take_prefix _ _
  · exact List.prefix_rfl

/-- What is read of a request line. -/
theorem parts_requestLine (request : Text) : Parts (requestLine request).1 (requestLine request).2 := by
  have hline : find CRLF (upTo CRLF request) = none := find_upTo CRLF_ne_nil request
  unfold requestLine
  dsimp only
  cases h : find [0x20] (upTo CRLF request) with
  | none =>
    have hblank := not_mem_upTo 0x20 (upTo CRLF request)
    rw [upTo_of_none h] at hblank
    exact ⟨⟨hblank, hblank⟩, hline, hline⟩
  | some sp1 =>
    have hblank := not_mem_upTo 0x20 (upTo CRLF request)
    rw [upTo_eq_take h] at hblank
    exact ⟨⟨hblank, not_mem_upTo _ _⟩, find_of_infix hline (List.take_prefix _ _).isInfix,
      find_of_infix hline ((upTo_isPrefix _ _).isInfix.trans (List.drop_suffix _ _).isInfix)⟩

/-- The start of the path is cut off. -/
theorem Parts.drop {method path : Text} (h : Parts method path) (n : ℕ) : Parts method (path.drop n) :=
  ⟨⟨h.noBlank.1, fun hb => h.noBlank.2 (List.mem_of_mem_drop hb)⟩, h.methodLine,
    find_of_infix h.pathLine (List.drop_suffix n path).isInfix⟩

theorem Parts.line {method path : Text} (h : Parts method path) :
    find CRLF (WebServer.forwardedLine method path) = none :=
  find_append_cons_none (by decide) CRLF_ne_nil (find_append_cons_none (by decide) CRLF_ne_nil h.methodLine h.pathLine)
    (by decide)

theorem proxyToApi_eq {w : WebServer} (hw : w.apiToken ≠ []) (method path body : Text) :
    w.proxyToApi method path body =
      WebServer.forwardedLine method path ++ (CRLF ++ (w.headers body.length ++ blankLine ++ body)) := by
  have h₁ : Utf8.bytes " HTTP/1.1\r\n" = 0x20 :: Utf8.bytes "HTTP/1.1" ++ CRLF := by decide
  have h₂ : Utf8.bytes "Content-Type: application/json\r\n" = Utf8.bytes "Content-Type: application/json" ++ CRLF := by
    decide
  have h₃ : Utf8.bytes "Authorization: Bearer " = Utf8.bytes "Authorization:" ++ Utf8.bytes " Bearer " := by
    decide
  have h₄ : Utf8.bytes "Content-Length: " = Utf8.bytes "Content-Length:" ++ [0x20] := by decide
  have h₅ : Utf8.bytes "Connection: close\r\n\r\n" = Utf8.bytes "Connection: close" ++ blankLine := by decide
  have h₆ : Utf8.bytes " " = [0x20] := by decide
  unfold WebServer.proxyToApi WebServer.forwardedLine WebServer.headers
  rw [if_pos hw, h₁, h₂, h₃, h₄, h₅, h₆]
  simp only [List.append_assoc, List.cons_append, List.nil_append]

section Head

variable {w : WebServer} {method path body : Text}

/-- The first blank line ends the headers. -/
theorem upTo_headers (w : WebServer) (n : ℕ) (body : Text) :
    upTo blankLine (w.headers n ++ blankLine ++ body) = w.ownHeaders n := by
  obtain ⟨i, -, hi⟩ : ∃ i ≤ (w.headers n).length, find blankLine (w.headers n ++ blankLine) = some i :=
    find_of_drop (by rw [List.drop_left])
  have hlen := length_of_find blankLine_ne_nil hi
  rw [WebServer.ownHeaders, upTo_eq_take hi, upTo_eq_take (find_longer blankLine_ne_nil hi (List.prefix_append _ body)),
    List.take_append_of_le_length (by omega)]

/-- The head that is sent on, as the REST port takes it. -/
theorem upTo_proxyToApi (hw : w.apiToken ≠ []) (h : Parts method path) :
    upTo blankLine (w.proxyToApi method path body) =
      WebServer.forwardedLine method path ++ (CRLF ++ w.ownHeaders body.length) := by
  have hhost : (w.headers body.length ++ blankLine ++ body).head? ≠ some 0x0D := by
    have hfirst : (w.headers body.length ++ blankLine ++ body).head? = some 0x48 := rfl
    rw [hfirst]
    decide
  rw [proxyToApi_eq hw, upTo_blankLine_line hhost h.line, upTo_headers]

theorem find_proxyToApi (hw : w.apiToken ≠ []) (h : Parts method path) :
    find blankLine (w.proxyToApi method path body) =
      some ((WebServer.forwardedLine method path).length + (w.ownHeaders body.length).length + 2) := by
  have hthere : blankLine <+: (w.proxyToApi method path body).drop
      (WebServer.forwardedLine method path ++ (CRLF ++ w.headers body.length)).length := by
    have hsplit : w.proxyToApi method path body =
        WebServer.forwardedLine method path ++ (CRLF ++ w.headers body.length) ++ (blankLine ++ body) := by
      simp only [proxyToApi_eq hw, List.append_assoc]
    rw [hsplit, List.drop_left]
    exact List.prefix_append _ _
  obtain ⟨i, -, hi⟩ := find_of_drop hthere
  have hlen := length_of_find blankLine_ne_nil hi
  have htake := congrArg List.length ((upTo_eq_take hi).symm.trans (upTo_proxyToApi hw h))
  rw [List.length_take, List.length_append, List.length_append, show CRLF.length = 2 from rfl] at htake
  rw [hi]
  congr 1
  omega

theorem requestLine_proxyToApi (hw : w.apiToken ≠ []) (h : Parts method path) :
    requestLine (w.proxyToApi method path body) = (method, path) := by
  rw [proxyToApi_eq hw]
  exact requestLine_of_line h.noBlank.1 h.noBlank.2 h.line _

/-- A header is looked for in the line, and then in the headers. -/
theorem headerValue_proxyToApi {name : Text} (hn : name ≠ []) (hreturn : 0x0D ∉ name) (hfeed : 0x0A ∉ name)
    (hw : w.apiToken ≠ []) (h : Parts method path) :
    headerValue (upTo blankLine (w.proxyToApi method path body)) name =
      (headerValue (WebServer.forwardedLine method path) name).or (headerValue (w.ownHeaders body.length) name) := by
  rw [upTo_proxyToApi hw h, ← List.append_assoc, headerValue_append hn hreturn hfeed]

end Head

theorem isOk_contentLength {headers : Text} : (contentLength headers).isOk = true ↔
    ∀ v, headerValue headers (Utf8.bytes "content-length:") = some v → ∃ n, stoull v = some n ∧
      n.toNat ≤ MAX_BODY_SIZE := by
  unfold contentLength
  cases headerValue headers (Utf8.bytes "content-length:") with
  | none => exact ⟨fun _ _ hv => (nomatch hv), fun _ => rfl⟩
  | some v =>
    dsimp only
    cases hn : stoull v with
    | none =>
      refine ⟨(nomatch ·), fun h => ?_⟩
      obtain ⟨n, hread, -⟩ := h v rfl
      rw [hn] at hread
      cases hread
    | some n =>
      dsimp only
      by_cases hlarge : MAX_BODY_SIZE < n.toNat
      · rw [if_pos hlarge]
        refine ⟨(nomatch ·), fun h => ?_⟩
        obtain ⟨m, hread, hm⟩ := h v rfl
        rw [hn] at hread
        obtain rfl := Option.some.inj hread
        exact absurd hlarge (Nat.not_lt.mpr hm)
      · rw [if_neg hlarge]
        refine ⟨fun _ w hw => ?_, fun _ => rfl⟩
        obtain rfl := Option.some.inj hw
        exact ⟨n, hn, Nat.le_of_not_lt hlarge⟩

/-- **What is forwarded passes** exactly if the line gets through with the server's own
headers. -/
theorem passes_proxyToApi (ht : s.apiToken ≠ []) (apiPort : ℤ) {method path : Text} (h : Parts method path)
    (body : Text) : s.Passes ((s.web apiPort).proxyToApi method path body) ↔
      s.GetsThrough apiPort method path body.length := by
  have hfind := @find_proxyToApi (s.web apiPort) _ _ body ht h
  have hline := @requestLine_proxyToApi (s.web apiPort) _ _ body ht h
  obtain ⟨hareturn, hafeed, hcreturn, hcfeed⟩ := Plain.names
  have hauth := @headerValue_proxyToApi (s.web apiPort) _ _ body _ Plain.names_ne_nil.1 hareturn hafeed ht h
  have hlength := @headerValue_proxyToApi (s.web apiPort) _ _ body _ Plain.names_ne_nil.2 hcreturn hcfeed ht h
  constructor
  · rintro ⟨⟨i, hi, hsize⟩, hok, hpath, token, hbearer, ha⟩
    rw [bearer, hauth] at hbearer
    obtain ⟨v, hv, hvalue⟩ := Option.bind_eq_some_iff.mp hbearer
    rw [hfind] at hi
    rw [hline] at hpath
    rw [isOk_contentLength, hlength] at hok
    exact ⟨hpath, by have := Option.some.inj hi; omega, hok, v, hv, token, hvalue, ha⟩
  · rintro ⟨hpath, hsize, hok, v, hv, token, hvalue, ha⟩
    refine ⟨⟨_, hfind, by omega⟩, ?_, ?_, token, ?_, ha⟩
    · rw [isOk_contentLength, hlength]
      exact hok
    · rw [hline]
      exact hpath
    · rw [bearer, hauth]
      exact Option.bind_eq_some_iff.mpr ⟨v, hv, hvalue⟩

/-! ### Plain requests -/

theorem headerValue_of_none {name line : Text} (h : find name (line.map toLower) = none) :
    headerValue line name = none := by
  rw [headerValue, h, Option.map_none]

/-- A line without the name is passed over. -/
theorem headerValue_skip {name line : Text} (hn : name ≠ []) (hreturn : 0x0D ∉ name) (hfeed : 0x0A ∉ name)
    (hline : find name (line.map toLower) = none) (t : Text) :
      headerValue (line ++ CRLF ++ t) name = headerValue t name := by
  rw [headerValue_append hn hreturn hfeed, headerValue_of_none hline, Option.none_or]

theorem Plain.line_authorization {line : Text} (h : Plain line) (t : Text) :
    headerValue (line ++ CRLF ++ t) (Utf8.bytes "authorization:") = headerValue t (Utf8.bytes "authorization:") :=
  headerValue_skip Plain.names_ne_nil.1 Plain.names.1 Plain.names.2.1 h.authorization t

theorem Plain.line_contentLength {line : Text} (h : find (Utf8.bytes "content-length:") (line.map toLower) = none)
    (t : Text) :
    headerValue (line ++ CRLF ++ t) (Utf8.bytes "content-length:") = headerValue t (Utf8.bytes "content-length:") :=
  headerValue_skip Plain.names_ne_nil.2 Plain.names.2.2.1 Plain.names.2.2.2 h t

section Configured

variable {w : WebServer} {method path : Text}

theorem plain_first (hm : Plain method) (hp : Plain path) : Plain (WebServer.forwardedLine method path) :=
  (hm.blank hp).blank (Plain.of_all (by decide))

theorem plain_host (w : WebServer) : Plain (Utf8.bytes "Host: 127.0.0.1:" ++ Json.dumpInt w.apiPort) := by
  have hname : ((Utf8.bytes "Host: 127.0.0.1:").all fun b => Plain.Harmless b) = true := by decide
  refine .of_harmless fun b hb => ?_
  rcases List.mem_append.mp hb with hb | hb
  · exact of_decide_eq_true (List.all_eq_true.mp hname b hb)
  · exact Plain.harmless_of_isNumeric (Json.dumpInt_numeric _ b hb)

theorem plain_type : Plain (Utf8.bytes "Content-Type: application/json") where
  line := by decide
  authorization := by decide
  contentLength := by decide

theorem no_return_authorization (hplain : Plain w.apiToken) : 0x0D ∉ Utf8.bytes " Bearer " ++ w.apiToken := by
  intro h
  rcases List.mem_append.mp h with h | h
  · exact absurd h (by decide)
  · exact hplain.line h

theorem no_return_length (n : ℕ) : 0x0D ∉ 0x20 :: Json.dumpNat n := by
  intro h
  rcases List.mem_cons.mp h with h | h
  · exact absurd h (by decide)
  · exact (Plain.harmless_of_isNumeric (Json.isNumeric_of_isDigit (Json.dumpNat_digits _ _ h))).1 rfl

/-- With a plain token the headers have no blank line. -/
theorem ownHeaders_of_plain (hplain : Plain w.apiToken) (n : ℕ) : w.ownHeaders n = w.headers n := by
  have hlast : IsHead (Utf8.bytes "Connection: close") := .of_line (by decide) (by decide)
  have hlength : 0x0D ∉ Utf8.bytes "Content-Length:" ++ (0x20 :: Json.dumpNat n) := by
    intro h
    exact (List.mem_append.mp h).elim (fun h => absurd h (by decide)) (no_return_length n)
  have hauth : 0x0D ∉ Utf8.bytes "Authorization:" ++ (Utf8.bytes " Bearer " ++ w.apiToken) := by
    intro h
    exact (List.mem_append.mp h).elim (fun h => absurd h (by decide)) (no_return_authorization hplain)
  have hhead : IsHead (w.headers n) :=
    (((hlast.cons (List.cons_ne_nil _ _) hlength).cons (List.cons_ne_nil _ _) hauth).cons (List.cons_ne_nil _ _)
      plain_type.line).cons (List.cons_ne_nil _ _) (plain_host w).line
  have hends := hhead.ends []
  rwa [List.append_nil] at hends

theorem authorization_headers (hplain : Plain w.apiToken) (n : ℕ) :
    headerValue (w.headers n) (Utf8.bytes "authorization:") = some (Utf8.bytes "Bearer " ++ w.apiToken) := by
  have hname : (Utf8.bytes "Authorization:").map toLower = Utf8.bytes "authorization:" := by decide
  have hblank : (Utf8.bytes " Bearer " ++ w.apiToken).dropWhile (· = 0x20) = Utf8.bytes "Bearer " ++ w.apiToken := rfl
  rw [WebServer.headers, (plain_host w).line_authorization, plain_type.line_authorization,
    headerValue_self hname (no_return_authorization hplain), hblank]

theorem contentLength_headers (hplain : Plain w.apiToken) (n : ℕ) :
    headerValue (w.headers n) (Utf8.bytes "content-length:") = some (Json.dumpNat n) := by
  have hname : (Utf8.bytes "Content-Length:").map toLower = Utf8.bytes "content-length:" := by decide
  have hauth : find (Utf8.bytes "content-length:")
      ((Utf8.bytes "Authorization:" ++ (Utf8.bytes " Bearer " ++ w.apiToken)).map toLower) = none := by
    have hsplit : (Utf8.bytes "Authorization:" ++ (Utf8.bytes " Bearer " ++ w.apiToken)).map toLower =
        (Utf8.bytes "authorization: bearer") ++ 0x20 :: w.apiToken.map toLower := rfl
    rw [hsplit]
    exact find_append_cons_none (by decide) (List.cons_ne_nil _ _) (by decide) hplain.contentLength
  have hblank : (0x20 :: Json.dumpNat n).dropWhile (· = 0x20) = Json.dumpNat n := by
    obtain ⟨b, t, hb⟩ := List.exists_cons_of_ne_nil (Json.dumpNat_ne_nil n)
    have hdigit : Json.isDigit b = true := Json.dumpNat_digits n b (hb ▸ List.mem_cons_self)
    have hne : b ≠ 0x20 := by
      rintro rfl
      exact absurd hdigit (by decide)
    rw [List.dropWhile_cons_of_pos (by decide), hb, List.dropWhile_cons_of_neg (by simpa using hne)]
  rw [WebServer.headers, Plain.line_contentLength (plain_host w).contentLength,
    Plain.line_contentLength plain_type.contentLength, Plain.line_contentLength hauth,
    headerValue_self hname (no_return_length n), hblank]

end Configured

/-- With a plain token every plain request gets through that is no health probe and
not too long, whoever sent it. -/
theorem getsThrough_of_plain (ht : s.apiToken ≠ []) (hplain : Plain s.apiToken) (apiPort : ℤ) {method path : Text}
    (hm : Plain method) (hp : Plain path) (hpath : cleanPath path ≠ Utf8.bytes "/v1/health") {n : ℕ}
    (hn : n ≤ MAX_BODY_SIZE)
    (hsize : (WebServer.forwardedLine method path).length + ((s.web apiPort).headers n).length + 6 ≤ 64 * 1024 + 8192) :
    s.GetsThrough apiPort method path n := by
  have hfirst := plain_first hm hp
  have hweb : Plain (s.web apiPort).apiToken := hplain
  have hmax : n < 2 ^ 64 := lt_of_le_of_lt hn (by decide)
  have hnat : (UInt64.ofNat n).toNat = n := UInt64.toNat_ofNat_of_lt' hmax
  have hread : stoull (Json.dumpNat n) = some (UInt64.ofNat n) := by
    have h := stoull_toString (UInt64.ofNat n)
    rwa [Auth.toString, hnat] at h
  have hbearer : bearerOf (Utf8.bytes "Bearer " ++ s.apiToken) = some s.apiToken := by
    have hpos := List.length_pos_of_ne_nil ht
    rw [bearerOf, if_neg]
    · rfl
    · rintro (h | h)
      · rw [List.length_append, show (Utf8.bytes "Bearer ").length = 7 from rfl] at h
        omega
      · exact h rfl
  refine ⟨hpath, by rw [ownHeaders_of_plain hweb]; exact hsize, fun v hv => ?_, Utf8.bytes "Bearer " ++ s.apiToken, ?_,
    s.apiToken, hbearer, ?_⟩
  · rw [headerValue_of_none hfirst.contentLength, Option.none_or, ownHeaders_of_plain hweb,
      contentLength_headers hweb] at hv
    obtain rfl := Option.some.inj hv
    exact ⟨UInt64.ofNat n, hread, hnat.symm ▸ hn⟩
  · rw [headerValue_of_none hfirst.authorization, Option.none_or, ownHeaders_of_plain hweb, authorization_headers hweb]
    rfl
  · rw [accepts, constantTimeEq_iff.mpr rfl, Bool.true_or]

variable {s}

/-- What is forwarded is a request for the API of which the line was read. -/
theorem forwarded_iff {w : WebServer} {n : ℕ} {sent request : Text} :
    w.handleClient n sent = .forwarded request ↔ (find CRLF (sent.take (min n 65535))).isSome = true ∧
      Utf8.bytes "/api/" <+: (requestLine (sent.take (min n 65535))).2 ∧
      request = w.proxyToApi (requestLine (sent.take (min n 65535))).1
        ((requestLine (sent.take (min n 65535))).2.drop 4) (WebServer.bodyOf (sent.take (min n 65535))) := by
  unfold WebServer.handleClient
  by_cases hnil : sent.take (min n 65535) = []
  · have hfind : find CRLF ([] : Text) = none := rfl
    simp [hnil, hfind]
  · dsimp only
    rw [if_neg hnil]
    cases hf : find CRLF (sent.take (min n 65535)) with
    | none => simp
    | some i =>
      by_cases hapi : Utf8.bytes "/api/" <+: (requestLine (sent.take (min n 65535))).2
      · simp [hapi, eq_comm]
      · simp [hapi]

/-- **Which requests are guarded.** With a token configured, what a client sends to
the REST port is guarded unless it strays, and what it sends to the web interface
unless it slips through. -/
theorem guarded_iff (ht : s.apiToken ≠ []) (apiPort : ℤ) (sent : Text) :
    (s.Guarded sent ↔ ¬ s.Strays sent) ∧ (s.WebGuarded apiPort sent ↔ ¬ s.Slips apiPort sent) := by
  constructor
  · constructor
    · intro hg hs
      obtain ⟨sizes, body, hr⟩ := hs.passes.routed ht
      exact hs.bare (hg sizes _ _ body hr hs.passes.path)
    · intro hs sizes method path body hr hp
      by_contra hbare
      have hpass := passes_of_routed ht hr hp
      obtain ⟨token, hb, ha⟩ := hpass.token
      exact hs ⟨hpass, fun pos hpos hstart => hbare (carries_of_startsLine hb ha hpos hstart), hbare⟩
  · constructor
    · rintro hg ⟨⟨n, hn, hline, hapi, hthrough⟩, hbare⟩
      have hpass := (s.passes_proxyToApi ht apiPort ((parts_requestLine (sent.take n)).drop 4)
        (WebServer.bodyOf (sent.take n))).mpr hthrough
      obtain ⟨sizes, body, hr⟩ := hpass.routed ht
      have hread : min n 65535 = n := Nat.min_eq_left hn
      exact hbare (hg n _ (forwarded_iff.mpr (by rw [hread]; exact ⟨hline, hapi, rfl⟩)) sizes _ _ body hr hpass.path)
    · intro hs n request hf sizes method path body hr hp
      by_contra hbare
      obtain ⟨hline, hapi, hrequest⟩ := forwarded_iff.mp hf
      rw [hrequest] at hr
      have hthrough := (s.passes_proxyToApi ht apiPort ((parts_requestLine (sent.take (min n 65535))).drop 4) _).mp
        (passes_of_routed ht hr hp)
      exact hs ⟨⟨min n 65535, Nat.min_le_right _ _, hline, hapi, hthrough⟩, hbare⟩

end RestServer

/-! ### A server with a token -/

/-- Its token is configured, and it has no keys. -/
def guarded : RestServer UInt32 where
  apiToken := Utf8.bytes "secret"
  authManager := { opened := .start Memory.fourCached Memory.plain, keys := [], issued := [] }
  sha256Hex := Auth.sha256

/-- A request with the token is guarded at both ports. -/
theorem guarded_metrics :
    guarded.Guarded (Utf8.bytes "GET /v1/metrics HTTP/1.1\r\nAuthorization: Bearer secret\r\n\r\n") ∧
    guarded.WebGuarded 8080 (Utf8.bytes "GET /api/v1/metrics HTTP/1.1\r\nAuthorization: Bearer secret\r\n\r\n") := by
  have ht : guarded.apiToken ≠ [] := by decide
  constructor
  · exact (RestServer.guarded_iff ht 8080 _).1.mpr fun h => h.bare (by decide)
  · exact (RestServer.guarded_iff ht 8080 _).2.mpr fun h => h.bare (by decide)

/-- Anyone can list the memories through the web interface, and at the REST port
the token may stand in another header. -/
theorem unguarded_list :
    ¬ guarded.WebGuarded 8080 (Utf8.bytes "GET /api/v1/memories/list HTTP/1.1\r\n\r\n") ∧
    ¬ guarded.Guarded (Utf8.bytes "GET /v1/metrics HTTP/1.1\r\nX-Authorization: Bearer secret\r\n\r\n") := by
  constructor
  · intro h
    have hroute : guarded.handleClient (List.replicate 9 8192)
        ((guarded.web 8080).proxyToApi (Utf8.bytes "GET") (Utf8.bytes "/v1/memories/list") []) =
        .routed (Utf8.bytes "GET") (Utf8.bytes "/v1/memories/list") [] := by decide +kernel
    exact absurd (h 65535 _ rfl _ _ _ _ hroute (by decide)) (by decide)
  · intro h
    have hroute : guarded.handleClient (List.replicate 9 8192)
        (Utf8.bytes "GET /v1/metrics HTTP/1.1\r\nX-Authorization: Bearer secret\r\n\r\n") =
        .routed (Utf8.bytes "GET") (Utf8.bytes "/v1/metrics") [] := by decide
    exact absurd (h _ _ _ _ hroute (by decide)) (by decide)

end Server
end Amind
