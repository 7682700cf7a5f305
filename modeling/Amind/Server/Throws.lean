/-
# What is thrown while a request is served

The two servers once more, with every text cut at machine positions and every call
that may throw. At the REST port nothing gets out, whatever a handler throws, and
the outcome is that of the model without exceptions (`handleClient_eq`): each
position is one in the text, or stands for its end. The web interface has no such
guard around the calls to the file system, and cuts the first byte off a path that
may be empty.

`survives_iff` says which requests leave both servers running.
-/
import Amind.Config.Variables
import Amind.Server.StaticFiles

namespace Amind
namespace Server
namespace Throws

open Amind.Core Amind.Auth Amind.Search Amind.Cut

/-! ### Cutting a request -/

/-- Cut the method and the path out of the first line. -/
def cutLine (request : Text) (firstLineEnd : UInt64) : Except Thrown (Text × Text) := do
  let firstLine ← substr request 0 firstLineEnd
  let sp1 := findFrom [0x20] firstLine 0
  let sp2 := findFrom [0x20] firstLine (sp1 + 1)
  let method ← substr firstLine 0 sp1
  let path ← substr firstLine (sp1 + 1) (sp2 - sp1 - 1)
  return (method, path)

/-- The position behind the blanks at a position, which are looked for up to
another. -/
def skipBlanks (stop : UInt64) : Text → UInt64 → UInt64
  | [], pos => pos
  | b :: s, pos => if pos < stop ∧ b = 0x20 then skipBlanks stop s (pos + 1) else pos

/-- Cut the value out of a line that begins behind a name. -/
def cutValue (text shown : Text) (stop valStart : UInt64) : Except Thrown Text :=
  let valStart := skipBlanks stop (shown.drop valStart.toNat) valStart
  let lineEnd := findFrom CRLF text valStart
  substr text valStart (lineEnd - valStart)

/-- The length of the body, from the head of a request. -/
def contentLength (request : Text) (headerEnd : UInt64) : Except Thrown (Except Refusal ℕ) := do
  let headersLower := (← substr request 0 headerEnd).map toLower
  let clPos := findFrom (Utf8.bytes "content-length:") headersLower 0
  if clPos = npos then return .ok 0
  else
    let valStr ← cutValue request request headerEnd (clPos + 15)
    return match stoull valStr with
      | none => .error ⟨400, "invalid Content-Length"⟩
      | some n => if MAX_BODY_SIZE < n.toNat then .error ⟨413, "request body too large"⟩ else .ok n.toNat

section Lemmas

variable {text : Text}

theorem upTo_length_le (needle t : Text) : (upTo needle t).length ≤ t.length := by
  unfold upTo
  split
  · exact List.length_take_le' _ _
  · exact le_rfl

theorem cutLine_eq (h : text.length < 2 ^ 63) : cutLine text (findFrom CRLF text 0) = .ok (requestLine text) := by
  have hline : (upTo CRLF text).length < 2 ^ 63 := Nat.lt_of_le_of_lt (upTo_length_le CRLF text) h
  have hsub : ∀ a b : UInt64, a - b - 1 = a - (b + 1) := by grind
  have hone : (1 : UInt64).toNat = 1 := by decide
  unfold cutLine requestLine
  rw [substr_find CRLF_ne_nil h]
  change (do
    let method ← substr (upTo CRLF text) 0 (findFrom [0x20] (upTo CRLF text) 0)
    let path ← substr (upTo CRLF text) (findFrom [0x20] (upTo CRLF text) 0 + 1)
      (findFrom [0x20] (upTo CRLF text) (findFrom [0x20] (upTo CRLF text) 0 + 1) -
        findFrom [0x20] (upTo CRLF text) 0 - 1)
    return (method, path)) = _
  generalize upTo CRLF text = line at *
  dsimp only
  rw [substr_find (List.cons_ne_nil _ _) hline, hsub]
  cases hf : find [0x20] line with
  | none =>
    -- the position behind none is the first
    have hfirst : findFrom [0x20] line 0 + 1 = 0 := by
      rw [findFrom_of_none hf]
      decide
    have hnone : upTo [0x20] line = line := by rw [upTo, hf]
    rw [hfirst, substr_findFrom (List.cons_ne_nil _ _) (Nat.zero_le _) hline]
    change Except.ok (upTo [0x20] line, upTo [0x20] line) = .ok (line, line)
    rw [hnone]
  | some i =>
    have hi := length_of_find (List.cons_ne_nil _ _) hf
    rw [List.length_singleton] at hi
    have hnext : (findFrom [0x20] line 0 + 1).toNat = i + 1 := by
      rw [findFrom_of_some hf, UInt64.toNat_add, toNat_ofNat_of_le (s := line) (by omega) hline, hone]
      omega
    rw [substr_findFrom (List.cons_ne_nil _ _) (by omega) hline, hnext, upTo_eq_take hf]
    rfl

theorem skipBlanks_toNat {stop : UInt64} : ∀ {t : Text} {pos : UInt64}, pos.toNat + t.length < 2 ^ 63 →
    (skipBlanks stop t pos).toNat =
      pos.toNat + ((t.take (stop.toNat - pos.toNat)).takeWhile (· = 0x20)).length
  | [], pos, _ => by simp [skipBlanks]
  | b :: t, pos, h => by
    rw [List.length_cons] at h
    unfold skipBlanks
    by_cases hpos : pos < stop
    · obtain ⟨k, hk⟩ : ∃ k, stop.toNat - pos.toNat = k + 1 := by
        have := UInt64.lt_iff_toNat_lt.mp hpos
        exact ⟨stop.toNat - pos.toNat - 1, by omega⟩
      by_cases hb : b = 0x20
      · have hsucc : (pos + 1).toNat = pos.toNat + 1 := by
          rw [UInt64.toNat_add, show (1 : UInt64).toNat = 1 by decide]
          omega
        rw [if_pos ⟨hpos, hb⟩, skipBlanks_toNat (by omega), hsucc, hk, List.take_succ_cons,
          List.takeWhile_cons_of_pos (by simp [hb]), List.length_cons, show stop.toNat - (pos.toNat + 1) = k by omega]
        omega
      · rw [if_neg fun h => hb h.2, hk, List.take_succ_cons, List.takeWhile_cons_of_neg (by simp [hb])]
        rfl
    · have hzero : stop.toNat - pos.toNat = 0 := by
        have := mt UInt64.lt_iff_toNat_lt.mpr hpos
        omega
      rw [if_neg fun h => hpos h.1, hzero, List.take_zero]
      rfl

theorem CRLF_ends : ∀ d, 0 < d → d < CRLF.length → ¬ CRLF.drop d <+: CRLF := by
  intro d hpos hlt
  obtain rfl : d = 1 := Nat.le_antisymm (Nat.le_of_lt_succ hlt) hpos
  decide

/-- The value ends with its line, or with the text. -/
theorem cutValue_eq {f : UInt8 → UInt8} (hf : ∀ b, f b = 0x20 ↔ b = 0x20) (h : text.length < 2 ^ 63)
    {stop pos : UInt64} (hpos : pos.toNat ≤ stop.toNat) (hstop : stop.toNat ≤ text.length)
    (hend : text.drop stop.toNat = [] ∨ CRLF <+: text.drop stop.toNat) : cutValue text (text.map f) stop pos =
      .ok (upTo CRLF (((text.take stop.toNat).drop pos.toNat).dropWhile (· = 0x20))) := by
  set head := text.take stop.toNat with hhead
  set blanks := (head.drop pos.toNat).takeWhile (· = 0x20) with hblanks
  have hheadlen : head.length = stop.toNat := by rw [hhead, List.length_take, Nat.min_eq_left hstop]
  have hsame : ∀ t : Text, ((t.map f).takeWhile (· = 0x20)).length = (t.takeWhile (· = 0x20)).length := by
    intro t
    rw [List.takeWhile_map, List.length_map]
    congr 2
    funext b
    simp [hf b]
  have hv : (skipBlanks stop ((text.map f).drop pos.toNat) pos).toNat = pos.toNat + blanks.length := by
    rw [skipBlanks_toNat (by rw [List.length_drop, List.length_map]; omega), ← List.map_drop, ← List.map_take, hsame,
      ← List.drop_take]
  have hle : pos.toNat + blanks.length ≤ stop.toNat := by
    have hk : blanks.length ≤ (head.drop pos.toNat).length := (List.takeWhile_prefix _).length_le
    rw [List.length_drop] at hk
    omega
  have hrest : text.drop (pos.toNat + blanks.length) =
      (head.drop pos.toNat).dropWhile (· = 0x20) ++ text.drop stop.toNat := by
    have hdrop : (head.drop pos.toNat).dropWhile (· = 0x20) = head.drop (pos.toNat + blanks.length) := by
      conv_rhs => rw [← List.drop_drop, ← List.takeWhile_append_dropWhile (p := (· = 0x20)) (l := head.drop pos.toNat)]
      rw [List.drop_left]
    rw [hdrop, ← List.drop_append_of_le_length (by omega), hhead, List.take_append_drop]
  unfold cutValue
  dsimp only
  rw [substr_findFrom CRLF_ne_nil (by omega) h, hv, hrest]
  rcases hend with hend | hend
  · rw [hend, List.append_nil]
  · rw [upTo_append_of_starts CRLF_ne_nil CRLF_ends hend]

/-- What the head says is what the model without exceptions reads of it. -/
theorem contentLength_eq (h : text.length < 2 ^ 63) {i : ℕ} (hi : find blankLine text = some i) :
    contentLength text (UInt64.ofNat i) = .ok (Server.contentLength (text.take i)) := by
  have hlen := length_of_find blankLine_ne_nil hi
  have hnat : (UInt64.ofNat i).toNat = i := toNat_ofNat_of_le (s := text) (by omega) h
  have hcrlf : CRLF <+: text.drop i := (List.prefix_append CRLF CRLF).trans (prefix_of_find hi)
  have hhead : substr text 0 (UInt64.ofNat i) = .ok (text.take i) := by
    rw [substr_of_le (Nat.zero_le _), hnat, UInt64.toNat_zero, List.drop_zero]
  have hlower : ((text.take i).map toLower).length = i := by
    rw [List.length_map, List.length_take, Nat.min_eq_left (by omega)]
  have hname : Utf8.bytes "content-length:" ≠ [] := by decide
  unfold contentLength Server.contentLength headerValue
  rw [hhead]
  change (if findFrom (Utf8.bytes "content-length:") ((text.take i).map toLower) 0 = npos then _ else _) = _
  cases hf : find (Utf8.bytes "content-length:") ((text.take i).map toLower) with
  | none =>
    rw [if_pos (findFrom_of_none hf)]
    rfl
  | some pos =>
    have hpos := length_of_find hname hf
    rw [hlower, show (Utf8.bytes "content-length:").length = 15 by decide] at hpos
    have hsum : (UInt64.ofNat pos + 15).toNat = pos + 15 := by
      rw [UInt64.toNat_add, toNat_ofNat_of_le (s := text) (by omega) h, show (15 : UInt64).toNat = 15 by decide]
      omega
    have hvalue : cutValue text (text.map id) (UInt64.ofNat i) (UInt64.ofNat pos + 15) = _ :=
      cutValue_eq (fun _ => Iff.rfl) h (by omega) (by omega) (by rw [hnat]; exact .inr hcrlf)
    rw [List.map_id, hnat, hsum] at hvalue
    rw [if_neg ((findFrom_eq_npos_iff hname (by omega)).not.mpr (by rw [hf]; exact Option.some_ne_none _)),
      findFrom_of_some hf, hvalue]
    rfl

theorem toLower_eq_blank (b : UInt8) : toLower b = 0x20 ↔ b = 0x20 := by
  unfold toLower
  split
  · next h =>
    obtain ⟨h₁, h₂⟩ := h
    rw [UInt8.le_iff_toNat_le] at h₁ h₂
    change 65 ≤ b.toNat at h₁
    change b.toNat ≤ 90 at h₂
    constructor
    · intro heq
      have hsum := congrArg UInt8.toNat heq
      rw [UInt8.toNat_add, show (0x20 : UInt8).toNat = 32 by decide] at hsum
      omega
    · rintro rfl
      exact absurd h₁ (by decide)
  · exact Iff.rfl

end Lemmas

/-! ### The REST port -/

/-- What a client is answered. -/
inductive Reply
  | closed
  | refused (e : Refusal)
  | answered (response : Text)
  deriving DecidableEq

/-- How a request is handled: the text of the response, or what is thrown. -/
abbrev Route := Text → Text → Text → Except Thrown Text

/-- What follows from an outcome. -/
def reply (route : Route) : Outcome → Reply
  | .closed => .closed
  | .refused e => .refused e
  | .routed method path body =>
    match route method path body with
    | .ok response => .answered response
    | .error _ => .refused ⟨500, "internal server error"⟩

/-- A path without its query. -/
def cleanPath (path : Text) : Except Thrown Text :=
  let qmark := findFrom [0x3F] path 0
  if qmark ≠ npos then substr path 0 qmark else .ok path

/-- The token of a head. -/
def bearer (headers : Text) : Except Thrown (Option Text) := do
  let headersLower := headers.map toLower
  let pos := findFrom (Utf8.bytes "authorization:") headersLower 0
  if pos = npos then return none
  else
    let authValue ← cutValue headers headersLower (UInt64.ofNat headersLower.length) (pos + 14)
    if authValue.length ≤ 7 then return none
    else if (← substr authValue 0 7) ≠ Utf8.bytes "Bearer " then return none
    else return some (← substr authValue 7 npos)

theorem cleanPath_eq {path : Text} (h : path.length < 2 ^ 63) : cleanPath path = .ok (Server.cleanPath path) := by
  unfold cleanPath
  dsimp only
  split
  · exact substr_find (List.cons_ne_nil _ _) h
  · next hnone =>
    have hfind := (findFrom_eq_npos_iff (List.cons_ne_nil _ _) h).mp (not_not.mp hnone)
    rw [Server.cleanPath, upTo, hfind]

theorem bearer_eq {headers : Text} (h : headers.length < 2 ^ 63) : bearer headers = .ok (Server.bearer headers) := by
  have hname : Utf8.bytes "authorization:" ≠ [] := by decide
  have hfourteen : (Utf8.bytes "authorization:").length = 14 := by decide
  have hlower : (headers.map toLower).length = headers.length := List.length_map _
  unfold bearer Server.bearer headerValue
  dsimp only
  cases hf : find (Utf8.bytes "authorization:") (headers.map toLower) with
  | none =>
    rw [if_pos (findFrom_of_none hf)]
    rfl
  | some pos =>
    have hpos := length_of_find hname hf
    rw [hlower, hfourteen] at hpos
    have hnat : (UInt64.ofNat headers.length).toNat = headers.length := toNat_ofNat_of_le (s := headers) le_rfl h
    have hsum : (UInt64.ofNat pos + 14).toNat = pos + 14 := by
      rw [UInt64.toNat_add, toNat_ofNat_of_le (s := headers) (by omega) h, show (14 : UInt64).toNat = 14 by decide]
      omega
    have hvalue : cutValue headers (headers.map toLower) (UInt64.ofNat headers.length) (UInt64.ofNat pos + 14) = _ :=
      cutValue_eq toLower_eq_blank h (by omega) (by omega) (by rw [hnat, List.drop_length]; exact .inl rfl)
    rw [hnat, hsum, List.take_length] at hvalue
    rw [if_neg ((findFrom_eq_npos_iff hname (by omega)).not.mpr (by rw [hf]; exact Option.some_ne_none _)),
      findFrom_of_some hf, hlower, hvalue, Option.map_some, Option.bind_some, hfourteen]
    set value := upTo CRLF ((headers.drop (pos + 14)).dropWhile (· = 0x20)) with hdef
    have hshort : value.length < 2 ^ 63 := by
      have h₁ := upTo_length_le CRLF ((headers.drop (pos + 14)).dropWhile (· = 0x20))
      have h₂ := (List.dropWhile_suffix (· = 0x20) (l := headers.drop (pos + 14))).length_le
      rw [List.length_drop] at h₂
      rw [hdef]
      omega
    change (if value.length ≤ 7 then _ else _) = _
    unfold bearerOf
    by_cases hlen : value.length ≤ 7
    · rw [if_pos hlen, if_pos (.inl hlen)]
      rfl
    · have hseven : (7 : UInt64).toNat = 7 := by decide
      have hfirst : substr value 0 7 = .ok (value.take 7) := by
        rw [substr_of_le (Nat.zero_le _), hseven]
        rfl
      have hsecond : substr value 7 npos = .ok (value.drop 7) := substr_npos (by omega) hshort
      rw [if_neg hlen, hfirst, hsecond]
      change (if value.take 7 ≠ Utf8.bytes "Bearer " then _ else _) = _
      by_cases hbearer : value.take 7 = Utf8.bytes "Bearer "
      · rw [if_neg (not_not.mpr hbearer), if_neg (not_or.mpr ⟨hlen, not_not.mpr hbearer⟩)]
        rfl
      · rw [if_pos hbearer, if_pos (.inr hbearer)]
        rfl

/-- What a request has from a position on, if it goes on there. -/
def cutBody (request : Text) (bodyOffset : UInt64) : Except Thrown Text :=
  if bodyOffset < UInt64.ofNat request.length then substr request bodyOffset npos else .ok []

section Rest

variable {F : Type} (s : RestServer F)

def checkAuth (headers path : Text) : Except Thrown (Option Refusal) := do
  if s.apiToken = [] then return none
  else if (← cleanPath path) = Utf8.bytes "/v1/health" then return none
  else
    match ← bearer headers with
    | none => return some ⟨401, "unauthorized"⟩
    | some token => return if s.accepts token then none else some ⟨401, "unauthorized"⟩

/-- Serve a request that was read in full. -/
def serve (route : Route) (request : Text) (headerEnd : UInt64) : Except Thrown Reply := do
  let (method, path) ← cutLine request (findFrom CRLF request 0)
  let body ← cutBody request (headerEnd + 4)
  let headersSection ← substr request 0 headerEnd
  match ← checkAuth s headersSection path with
  | some e => return .refused e
  | none => return reply route (.routed method path body)

def handleClient (route : Route) (sizes : List ℕ) (sent : Text) : Except Thrown Reply :=
  match readHead sizes sent [] with
  | none => .ok .closed
  | some (request, sizes, sent) => do
    let headerEnd := findFrom blankLine request 0
    if headerEnd = npos then return .closed
    else
      match ← contentLength request headerEnd with
      | .error e => return .refused e
      | .ok n =>
        let bodyReceived := UInt64.ofNat request.length - (headerEnd + 4)
        serve s route (readBody sizes (n - bodyReceived.toNat) sent request) headerEnd

variable {s}

theorem checkAuth_eq {headers path : Text} (hh : headers.length < 2 ^ 63) (hp : path.length < 2 ^ 63) :
    checkAuth s headers path = .ok (s.checkAuth headers path) := by
  unfold checkAuth RestServer.checkAuth
  rw [cleanPath_eq hp, bearer_eq hh]
  by_cases ht : s.apiToken = []
  · rw [if_pos ht, if_pos ht]
    rfl
  · rw [if_neg ht, if_neg ht]
    change (if Server.cleanPath path = Utf8.bytes "/v1/health" then _ else _) = _
    by_cases hhealth : Server.cleanPath path = Utf8.bytes "/v1/health"
    · rw [if_pos hhealth, if_pos hhealth]
      rfl
    · rw [if_neg hhealth, if_neg hhealth]
      cases Server.bearer headers <;> rfl

theorem readBody_length : ∀ (sizes : List ℕ) (missing : ℕ) (sent request : Text),
    (readBody sizes missing sent request).length ≤ request.length + missing
  | [], _, _, _ => Nat.le_add_right _ _
  | n :: sizes, missing, sent, request => by
    have hdata : (sent.take (min n (min 8192 missing))).length ≤ missing := by
      rw [List.length_take]
      omega
    rw [readBody]
    split
    · exact Nat.le_add_right _ _
    · have ih := readBody_length sizes (missing - (sent.take (min n (min 8192 missing))).length)
        (sent.drop (sent.take (min n (min 8192 missing))).length) (request ++ sent.take (min n (min 8192 missing)))
      rw [List.length_append] at ih
      omega

theorem requestLine_length_le (request : Text) : (requestLine request).2.length ≤ request.length := by
  have hline := upTo_length_le CRLF request
  unfold requestLine
  dsimp only
  cases find [0x20] (upTo CRLF request) with
  | none => exact hline
  | some sp1 =>
    have hpath := upTo_length_le [0x20] ((upTo CRLF request).drop (sp1 + 1))
    rw [List.length_drop] at hpath
    dsimp only
    omega

theorem contentLength_le {headers : Text} {n : ℕ} (h : Server.contentLength headers = .ok n) : n ≤ MAX_BODY_SIZE := by
  unfold Server.contentLength at h
  split at h
  · rw [← Except.ok.inj h]
    exact Nat.zero_le _
  · split at h
    · cases h
    · split at h
      · cases h
      · next hle =>
        rw [← Except.ok.inj h]
        exact Nat.le_of_not_lt hle

theorem toNat_add_four {request : Text} {i : ℕ} (h : request.length < 2 ^ 63) (hi : i + 4 ≤ request.length) :
    (UInt64.ofNat i + 4).toNat = i + 4 := by
  rw [UInt64.toNat_add, toNat_ofNat_of_le (s := request) (by omega) h, show (4 : UInt64).toNat = 4 by decide]
  omega

theorem serve_eq (route : Route) {request : Text} (h : request.length < 2 ^ 63) {i : ℕ} (hi : i + 4 ≤ request.length) :
    serve s route request (UInt64.ofNat i) =
      .ok (reply route (match s.checkAuth (request.take i) (requestLine request).2 with
        | some e => .refused e
        | none => .routed (requestLine request).1 (requestLine request).2 (request.drop (i + 4)))) := by
  have hnat : (UInt64.ofNat i).toNat = i := toNat_ofNat_of_le (s := request) (by omega) h
  have hall : (UInt64.ofNat request.length).toNat = request.length := toNat_ofNat_of_le (s := request) le_rfl h
  have hfour := toNat_add_four h hi
  have hbody : cutBody request (UInt64.ofNat i + 4) = .ok (request.drop (i + 4)) := by
    unfold cutBody
    split
    · rw [substr_npos (by omega) h, hfour]
    · next hend =>
      rw [UInt64.lt_iff_toNat_lt, hfour, hall] at hend
      rw [List.drop_of_length_le (by omega)]
  have hhead : substr request 0 (UInt64.ofNat i) = .ok (request.take i) := by
    rw [substr_of_le (Nat.zero_le _), hnat, UInt64.toNat_zero, List.drop_zero]
  have hheadlen : (request.take i).length < 2 ^ 63 := by
    rw [List.length_take]
    omega
  unfold serve
  rw [cutLine_eq h]
  change (do
    let body ← cutBody request (UInt64.ofNat i + 4)
    let headersSection ← substr request 0 (UInt64.ofNat i)
    match ← checkAuth s headersSection (requestLine request).2 with
    | some e => return Reply.refused e
    | none => return reply route (.routed (requestLine request).1 (requestLine request).2 body)) = _
  rw [hbody, hhead]
  change (do
    match ← checkAuth s (request.take i) (requestLine request).2 with
    | some e => return Reply.refused e
    | none => return reply route (.routed (requestLine request).1 (requestLine request).2 (request.drop (i + 4)))) = _
  rw [checkAuth_eq hheadlen (Nat.lt_of_le_of_lt (requestLine_length_le request) h)]
  cases s.checkAuth (request.take i) (requestLine request).2 <;> rfl

/-- **Nothing gets out of the REST port**, whatever a handler throws, and its
outcome is that of the model without exceptions. -/
theorem handleClient_eq (route : Route) (sizes : List ℕ) (sent : Text) :
    handleClient s route sizes sent = .ok (reply route (s.handleClient sizes sent)) := by
  unfold handleClient RestServer.handleClient
  cases hr : readHead sizes sent [] with
  | none => rfl
  | some x =>
    obtain ⟨r, ns, rest⟩ := x
    obtain ⟨-, hlen⟩ := readHead_start sizes sent [] hr (Nat.zero_le _)
    have hshort : r.length < 2 ^ 63 := by omega
    dsimp only
    cases hf : find blankLine r with
    | none =>
      rw [if_pos (findFrom_of_none hf)]
      rfl
    | some i =>
      have hi := length_of_find blankLine_ne_nil hf
      rw [show blankLine.length = 4 from rfl] at hi
      have hreceived : (UInt64.ofNat r.length - (UInt64.ofNat i + 4)).toNat = r.length - (i + 4) := by
        have hall : (UInt64.ofNat r.length).toNat = r.length := toNat_ofNat_of_le (s := r) le_rfl hshort
        have hfour := toNat_add_four hshort hi
        rw [UInt64.toNat_sub_of_le _ _ (UInt64.le_iff_toNat_le.mpr (by omega)), hall, hfour]
      rw [if_neg ((findFrom_eq_npos_iff blankLine_ne_nil hshort).not.mpr (by rw [hf]; exact Option.some_ne_none _)),
        findFrom_of_some hf, contentLength_eq hshort hf]
      dsimp only
      cases hc : Server.contentLength (r.take i) with
      | error e => rfl
      | ok n =>
        have hn := contentLength_le hc
        rw [show MAX_BODY_SIZE = 16777216 from rfl] at hn
        have hbody := readBody_length ns (n - (r.length - (i + 4))) rest r
        have hpre := (readBody_start ns (n - (r.length - (i + 4))) rest r).1.length_le
        change serve s route (readBody ns (n - (UInt64.ofNat r.length - (UInt64.ofNat i + 4)).toNat) rest r)
          (UInt64.ofNat i) = _
        rw [hreceived]
        exact (serve_eq route (by omega) (by omega)).trans rfl

end Rest

/-! ### The web interface -/

/-- What comes of a connection to the REST port. -/
inductive Connection
  | noSocket
  | refused
  | closed (responseData : Text) (short : responseData.length < 2 ^ 63)

/-- The status of a response, `200` if it says none. -/
def statusOf (responseData : Text) : Except Thrown ℤ := do
  let statusEnd := findFrom CRLF responseData 0
  if statusEnd = npos then return 200
  else
    let line ← substr responseData 0 statusEnd
    let sp := findFrom [0x20] line 0
    if sp = npos then return 200
    else
      -- whatever is thrown here is caught
      match substr line (sp + 1) 3 with
      | .ok digits => return (Config.stoi digits).getD 200
      | .error _ => return 200

/-- The body of a response, if its head ends. -/
def cutResponse (responseData : Text) : Except Thrown Text :=
  let bodyPos := findFrom blankLine responseData 0
  if bodyPos = npos then .ok [] else substr responseData (bodyPos + 4) npos

/-- The response of the REST port, wrapped. -/
def wrapResponse (responseData : Text) : Except Thrown Text := do
  let status ← statusOf responseData
  let body ← cutResponse responseData
  return httpResponse status "application/json" body

/-- The response to a request that was forwarded. -/
def respond : Connection → Except Thrown Text
  | .noSocket => .ok (httpResponse 502 "text/plain" (Utf8.bytes "Bad Gateway"))
  | .refused => .ok (httpResponse 502 "text/plain" (Utf8.bytes "Cannot connect to API server"))
  | .closed responseData _ =>
    if responseData = [] then .ok (httpResponse 502 "text/plain" (Utf8.bytes "Empty response from API"))
    else wrapResponse responseData

def proxyToApi (w : WebServer) (api : Text → Connection) (method path body : Text) : Except Thrown Text :=
  respond (api (w.proxyToApi method path body))

/-- The headers and the body of a request, if its head ends. -/
def cutBlocks (request : Text) (hdrStart : UInt64) : Except Thrown (Text × Text) := do
  let bodyStart := findFrom blankLine request 0
  if bodyStart = npos then return ([], [])
  else
    let headers ← substr request hdrStart (bodyStart - hdrStart)
    let body ← substr request (bodyStart + 4) npos
    return (headers, body)

namespace Site

variable (w : Site) (disk : Disk) (api : Text → Connection)

/-- Serve a request of which the first line ends. -/
def serve (request : Text) (firstLineEnd : UInt64) : Except Thrown Text := do
  let (method, path) ← cutLine request firstLineEnd
  let (_, body) ← cutBlocks request (firstLineEnd + 2)
  if findFrom (Utf8.bytes "/api/") path 0 = 0 then
    let apiPath ← substr path 4 npos
    proxyToApi w.toWebServer api method apiPath body
  else return (← w.serveFile disk path).response

/-- Serve a connection of which one read returns at most `n` bytes: the response
that is sent, if one is. -/
def handleClient (n : ℕ) (sent : Text) : Except Thrown (Option Text) :=
  let request := sent.take (min n 65535)
  if request = [] then .ok none
  else
    let firstLineEnd := findFrom CRLF request 0
    if firstLineEnd = npos then .ok none else some <$> serve w disk api request firstLineEnd

end Site

theorem statusOf_returns {data : Text} (h : data.length < 2 ^ 63) : ∃ status, statusOf data = .ok status := by
  unfold statusOf
  dsimp only
  split
  · exact ⟨200, rfl⟩
  · rw [substr_find CRLF_ne_nil h]
    change ∃ status, (if findFrom [0x20] (upTo CRLF data) 0 = npos then _ else _) = Except.ok status
    split
    · exact ⟨200, rfl⟩
    · cases substr (upTo CRLF data) (findFrom [0x20] (upTo CRLF data) 0 + 1) 3 with
      | ok digits => exact ⟨_, rfl⟩
      | error e => exact ⟨_, rfl⟩

/-- What is found can be cut off with what stands before it. -/
theorem cut_behind {request : Text} (h : request.length < 2 ^ 63) {i : ℕ} (hi : find blankLine request = some i) :
    substr request (UInt64.ofNat i + 4) npos = .ok (request.drop (i + 4)) := by
  have hlen := length_of_find blankLine_ne_nil hi
  rw [show blankLine.length = 4 from rfl] at hlen
  have hfour := toNat_add_four h hlen
  rw [substr_npos (by omega) h, hfour]

theorem cutResponse_returns {data : Text} (h : data.length < 2 ^ 63) : ∃ body, cutResponse data = .ok body := by
  unfold cutResponse
  cases hf : find blankLine data with
  | none => exact ⟨[], if_pos (findFrom_of_none hf)⟩
  | some i =>
    dsimp only
    rw [findFrom_of_some hf, cut_behind h hf]
    split <;> exact ⟨_, rfl⟩

theorem wrapResponse_returns {data : Text} (h : data.length < 2 ^ 63) :
    ∃ response, wrapResponse data = .ok response := by
  obtain ⟨status, hstatus⟩ := statusOf_returns h
  obtain ⟨body, hbody⟩ := cutResponse_returns h
  unfold wrapResponse
  rw [hstatus, hbody]
  exact ⟨_, rfl⟩

/-- Whatever comes of the connection, there is a response. -/
theorem respond_returns (c : Connection) : ∃ response, respond c = .ok response := by
  cases c with
  | noSocket => exact ⟨_, rfl⟩
  | refused => exact ⟨_, rfl⟩
  | closed data short =>
    unfold respond
    dsimp only
    split
    · exact ⟨_, rfl⟩
    · exact wrapResponse_returns short

theorem cutBlocks_eq {request : Text} (h : request.length < 2 ^ 63) {i : ℕ} (hi : find CRLF request = some i) :
    ∃ headers, cutBlocks request (UInt64.ofNat i + 2) = .ok (headers, WebServer.bodyOf request) := by
  have hlen := length_of_find CRLF_ne_nil hi
  rw [show CRLF.length = 2 from rfl] at hlen
  have htwo : (UInt64.ofNat i + 2).toNat = i + 2 := by
    rw [UInt64.toNat_add, toNat_ofNat_of_le (s := request) (by omega) h, show (2 : UInt64).toNat = 2 by decide]
    omega
  unfold cutBlocks WebServer.bodyOf
  cases hf : find blankLine request with
  | none =>
    rw [findFrom_of_none hf]
    exact ⟨[], rfl⟩
  | some j =>
    have hne := (findFrom_eq_npos_iff blankLine_ne_nil h).not.mpr (by rw [hf]; exact Option.some_ne_none _)
    rw [findFrom_of_some hf] at hne
    rw [findFrom_of_some hf]
    dsimp only
    rw [if_neg hne, substr_of_le (by omega), cut_behind h hf]
    exact ⟨_, rfl⟩

/-- A text is found at the first position if it is what the other starts with. -/
theorem findFrom_eq_zero_iff {needle t : Text} (hn : needle ≠ []) (h : t.length < 2 ^ 63) :
    findFrom needle t 0 = 0 ↔ needle <+: t := by
  constructor
  · intro hzero
    cases hf : find needle t with
    | none =>
      rw [findFrom_of_none hf] at hzero
      exact absurd hzero (by decide)
    | some i =>
      have hi := length_of_find hn hf
      have hnat := toNat_ofNat_of_le (s := t) (i := i) (by omega) h
      rw [← findFrom_of_some hf, hzero] at hnat
      obtain rfl : 0 = i := hnat
      exact prefix_of_find hf
  · intro hstart
    rw [findFrom_of_some (find_of_starts hstart)]
    rfl

namespace Site

variable {w : Site} {disk : Disk} {api : Text → Connection}

theorem serve_eq {request : Text} (h : request.length < 2 ^ 63) {i : ℕ} (hi : find CRLF request = some i) :
    serve w disk api request (UInt64.ofNat i) =
      if Utf8.bytes "/api/" <+: (requestLine request).2 then
        respond (api (w.proxyToApi (requestLine request).1 ((requestLine request).2.drop 4)
          (WebServer.bodyOf request)))
      else Served.response <$> w.serveFile disk (requestLine request).2 := by
  obtain ⟨headers, hblocks⟩ := cutBlocks_eq h hi
  have hpath : (requestLine request).2.length < 2 ^ 63 := Nat.lt_of_le_of_lt (requestLine_length_le request) h
  have hline := cutLine_eq h
  rw [findFrom_of_some hi] at hline
  unfold serve
  rw [hline, hblocks]
  change (if findFrom (Utf8.bytes "/api/") (requestLine request).2 0 = 0 then _ else _) = _
  by_cases hapi : Utf8.bytes "/api/" <+: (requestLine request).2
  · have hlen := hapi.length_le
    have hfour : (4 : UInt64).toNat = 4 := by decide
    have hcut : substr (requestLine request).2 4 npos = .ok ((requestLine request).2.drop 4) :=
      substr_npos (by rw [hfour]; exact Nat.le_trans (by decide) hlen) hpath
    rw [if_pos ((findFrom_eq_zero_iff (by decide) hpath).mpr hapi), if_pos hapi]
    change (do
      let apiPath ← substr (requestLine request).2 4 npos
      proxyToApi w.toWebServer api (requestLine request).1 apiPath (WebServer.bodyOf request)) = _
    rw [hcut]
    rfl
  · rw [if_neg ((findFrom_eq_zero_iff (by decide) hpath).not.mpr hapi), if_neg hapi]
    rfl

/-- What is done with a connection is what the model without exceptions says. -/
theorem handleClient_eq (n : ℕ) (sent : Text) : handleClient w disk api n sent =
    match w.toWebServer.handleClient n sent with
    | .closed => .ok none
    | .file path => (fun served => some served.response) <$> w.serveFile disk path
    | .forwarded request => some <$> respond (api request) := by
  have hlen : (sent.take (min n 65535)).length < 2 ^ 63 := by
    rw [List.length_take]
    omega
  unfold handleClient WebServer.handleClient
  dsimp only
  split
  · rfl
  · cases hf : find CRLF (sent.take (min n 65535)) with
    | none => rw [if_pos (findFrom_of_none hf)]
    | some i =>
      rw [if_neg ((findFrom_eq_npos_iff CRLF_ne_nil hlen).not.mpr (by rw [hf]; exact Option.some_ne_none _)),
        findFrom_of_some hf, serve_eq hlen hf]
      dsimp only
      split
      · rfl
      · dsimp only
        cases w.serveFile disk (requestLine (sent.take (min n 65535))).2 <;> rfl

end Site

/-! ### Which requests are survived -/

/-- Every call to the file system returns that serving `rest` from a root makes. -/
structure Answers (disk : Disk) (webRoot rest webRootAbs fullPath : Text) : Prop where
  root : disk.weaklyCanonical webRoot = .ok webRootAbs
  full : disk.weaklyCanonical (join webRootAbs rest) = .ok fullPath
  file : webRootAbs <+: fullPath → ∃ found, disk.isFile fullPath = .ok found
  content : webRootAbs <+: fullPath → disk.isFile fullPath = .ok true → ∃ content, disk.read fullPath = .ok content
  index : webRootAbs <+: fullPath → disk.isFile fullPath = .ok false →
    ∃ found, disk.existsAt (join webRootAbs indexHtml) = .ok found
  indexContent : webRootAbs <+: fullPath → disk.isFile fullPath = .ok false →
    disk.existsAt (join webRootAbs indexHtml) = .ok true →
      ∃ content, disk.read (join webRootAbs indexHtml) = .ok content

/-- A call in front of others returns, and what is done with its answer does. -/
theorem returns_bind {α β : Type} {x : Except Thrown α} {f : α → Except Thrown β} :
    (∃ b, x >>= f = .ok b) ↔ ∃ a, x = .ok a ∧ ∃ b, f a = .ok b := by
  constructor
  · rintro ⟨b, h⟩
    obtain ⟨a, ha, hb⟩ := bind_eq_ok.mp h
    exact ⟨a, ha, b, hb⟩
  · rintro ⟨a, ha, b, hb⟩
    exact ⟨b, bind_eq_ok.mpr ⟨a, ha, hb⟩⟩

section Serve

variable {disk : Disk} {webRootAbs fullPath : Text}

theorem serveRegular_returns : (∃ served, disk.serveRegular fullPath = .ok served) ↔
    ∃ content, disk.read fullPath = .ok content := by
  unfold Disk.serveRegular
  rw [returns_bind]
  constructor
  · rintro ⟨content, h, -⟩
    exact ⟨content, h⟩
  · rintro ⟨content, h⟩
    exact ⟨content, h, by cases content <;> exact ⟨_, rfl⟩⟩

theorem serveIndex_returns : (∃ served, disk.serveIndex webRootAbs = .ok served) ↔
    (∃ found, disk.existsAt (join webRootAbs indexHtml) = .ok found) ∧
      (disk.existsAt (join webRootAbs indexHtml) = .ok true →
        ∃ content, disk.read (join webRootAbs indexHtml) = .ok content) := by
  unfold Disk.serveIndex
  dsimp only
  rw [returns_bind]
  constructor
  · rintro ⟨found, hfound, h⟩
    refine ⟨⟨found, hfound⟩, fun htrue => ?_⟩
    obtain rfl : found = true := Except.ok.inj (hfound.symm.trans htrue)
    obtain ⟨content, hread, -⟩ := returns_bind.mp h
    exact ⟨content, hread⟩
  · rintro ⟨⟨found, hfound⟩, hread⟩
    refine ⟨found, hfound, ?_⟩
    cases found with
    | false => exact ⟨_, rfl⟩
    | true =>
      obtain ⟨content, hcontent⟩ := hread hfound
      exact returns_bind.mpr ⟨content, hcontent, by cases content <;> exact ⟨_, rfl⟩⟩

theorem serveFull_returns : (∃ served, disk.serveFull webRootAbs fullPath = .ok served) ↔
    (webRootAbs <+: fullPath → ∃ found, disk.isFile fullPath = .ok found ∧
      (found = true → ∃ served, disk.serveRegular fullPath = .ok served) ∧
      (found = false → ∃ served, disk.serveIndex webRootAbs = .ok served)) := by
  unfold Disk.serveFull
  by_cases hroot : webRootAbs <+: fullPath
  · rw [if_neg (not_not.mpr hroot), returns_bind]
    constructor
    · rintro ⟨found, hfound, h⟩ -
      refine ⟨found, hfound, ?_, ?_⟩
      · rintro rfl
        exact h
      · rintro rfl
        exact h
    · intro h
      obtain ⟨found, hfound, htrue, hfalse⟩ := h hroot
      refine ⟨found, hfound, ?_⟩
      cases found with
      | false => exact hfalse rfl
      | true => exact htrue rfl
  · rw [if_pos hroot]
    exact ⟨fun _ h => absurd h hroot, fun _ => ⟨_, rfl⟩⟩

/-- A file is served, or refused, unless the path is empty or a call is not
answered. -/
theorem serveFile_returns {w : Site} {urlPath : Text} : (∃ served, w.serveFile disk urlPath = .ok served) ↔
    urlPath ≠ [] ∧ ∃ r f, Answers disk w.webRoot (Server.Site.restOf urlPath) r f := by
  unfold Server.Site.serveFile
  rw [returns_bind, Server.Site.substr_decodedPath]
  constructor
  · rintro ⟨r, hr, h⟩
    obtain ⟨rest, hrest, h⟩ := returns_bind.mp h
    obtain ⟨f, hf, h⟩ := returns_bind.mp h
    have hserve := serveFull_returns.mp h
    by_cases hnil : urlPath = []
    · rw [if_pos hnil] at hrest
      cases hrest
    · rw [if_neg hnil] at hrest
      obtain rfl := Except.ok.inj hrest
      refine ⟨hnil, r, f, hr, hf, ?_, ?_, ?_, ?_⟩
      · intro hpre
        obtain ⟨found, hfound, -⟩ := hserve hpre
        exact ⟨found, hfound⟩
      · intro hpre htrue
        obtain ⟨found, hfound, hregular, -⟩ := hserve hpre
        exact serveRegular_returns.mp (hregular (Except.ok.inj (hfound.symm.trans htrue)))
      · intro hpre hfalse
        obtain ⟨found, hfound, -, hindex⟩ := hserve hpre
        exact (serveIndex_returns.mp (hindex (Except.ok.inj (hfound.symm.trans hfalse)))).1
      · intro hpre hfalse
        obtain ⟨found, hfound, -, hindex⟩ := hserve hpre
        exact (serveIndex_returns.mp (hindex (Except.ok.inj (hfound.symm.trans hfalse)))).2
  · rintro ⟨hnil, r, f, h⟩
    rw [if_neg hnil]
    refine ⟨r, h.root, returns_bind.mpr ⟨_, rfl, returns_bind.mpr ⟨f, h.full, ?_⟩⟩⟩
    refine serveFull_returns.mpr fun hpre => ?_
    obtain ⟨found, hfound⟩ := h.file hpre
    refine ⟨found, hfound, ?_, ?_⟩
    · rintro rfl
      exact serveRegular_returns.mpr (h.content hpre hfound)
    · rintro rfl
      exact serveIndex_returns.mpr ⟨h.index hpre hfound, h.indexContent hpre hfound⟩

end Serve

section Survival

variable {F : Type} (s : RestServer F) (route : Route) (w : Site) (disk : Disk) (api : Text → Connection)

/-- Nothing gets out of either server, however much of what was sent each read
returns. -/
def Survives (sizes : List ℕ) (n : ℕ) (sent : Text) : Prop :=
  (∃ reply, handleClient s route sizes sent = .ok reply) ∧
    ∃ response, Site.handleClient w disk api n sent = .ok response

/-- What the web interface reads has no line, asks for the API, or asks for a file
by a path that is not empty, and every call to the file system returns. -/
inductive Harmless (request : Text) : Prop
  | noLine (h : find CRLF request = none)
  | forApi (h : Utf8.bytes "/api/" <+: (requestLine request).2)
  | answered (hpath : (requestLine request).2 ≠ []) (webRootAbs fullPath : Text)
      (h : Answers disk w.webRoot (Server.Site.restOf (requestLine request).2) webRootAbs fullPath)

variable {s route w disk api}

/-- **Which requests are survived**: all but those for a file with an empty path,
or one for which a call to the file system throws. -/
theorem survives_iff (sizes : List ℕ) (n : ℕ) (sent : Text) :
    Survives s route w disk api sizes n sent ↔ Harmless w disk (sent.take (min n 65535)) := by
  have hrest : ∃ reply, handleClient s route sizes sent = .ok reply := ⟨_, handleClient_eq route sizes sent⟩
  have hmap : ∀ {α β : Type} {x : Except Thrown α} {f : α → β}, (∃ b, f <$> x = .ok b) ↔ ∃ a, x = .ok a := by
    intro α β x f
    cases x with
    | error e => exact ⟨fun ⟨_, h⟩ => (by cases h), fun ⟨_, h⟩ => (by cases h)⟩
    | ok a => exact ⟨fun _ => ⟨a, rfl⟩, fun _ => ⟨f a, rfl⟩⟩
  unfold Survives
  rw [and_iff_right hrest, Site.handleClient_eq]
  unfold WebServer.handleClient
  dsimp only
  by_cases hnil : sent.take (min n 65535) = []
  · rw [if_pos hnil, hnil]
    exact ⟨fun _ => .noLine rfl, fun _ => ⟨_, rfl⟩⟩
  · rw [if_neg hnil]
    cases hf : find CRLF (sent.take (min n 65535)) with
    | none => exact ⟨fun _ => .noLine hf, fun _ => ⟨_, rfl⟩⟩
    | some i =>
      dsimp only
      by_cases hapi : Utf8.bytes "/api/" <+: (requestLine (sent.take (min n 65535))).2
      · rw [if_pos hapi]
        exact ⟨fun _ => .forApi hapi, fun _ => hmap.mpr (respond_returns _)⟩
      · rw [if_neg hapi]
        dsimp only
        rw [hmap, serveFile_returns]
        constructor
        · rintro ⟨hpath, r, f, h⟩
          exact .answered hpath r f h
        · intro h
          cases h with
          | noLine h =>
            rw [hf] at h
            cases h
          | forApi h => exact absurd h hapi
          | answered hpath r f h => exact ⟨hpath, r, f, h⟩

end Survival

/-- Two blanks and no path are not survived. -/
theorem not_survived : ¬ Survives guarded (fun _ _ _ => .ok []) dashboard dashboardDisk (fun _ => .refused)
    (List.replicate 9 8192) 65535 (Utf8.bytes "GET  HTTP/1.1\r\n\r\n") := by
  rintro ⟨-, response, h⟩
  have hthrown : Site.handleClient dashboard dashboardDisk (fun _ => .refused) 65535
      (Utf8.bytes "GET  HTTP/1.1\r\n\r\n") = .error .outOfRange := by decide +kernel
  rw [hthrown] at h
  cases h

end Throws
end Server
end Amind
