/-
# Requests in chunks

The bytes of a request arrive in chunks, cut anywhere. The REST port reads until the
head ends, which may be within a chunk, and then as many bytes as are missing of the
body. For a well-formed request the two phases come to the same however it is cut:
what is received is the request (`received_alike`).
-/
import Amind.Server.ContentLength

namespace Amind
namespace Server
namespace Framing

open Amind.Core Amind.Search Amind.Auth
open Amind.Json (readNat)

/-! ### Receiving -/

/-- What comes of the bytes that arrive. -/
inductive Received
  | closed
  | refused (e : Refusal)
  | request (method path headers body : Text)
  deriving DecidableEq

/-- Read a request, up to the check of its token. -/
def receive (sizes : List ℕ) (sent : Text) : Received :=
  match readHead sizes sent [] with
  | none => .closed
  | some (request, sizes, sent) =>
    match find blankLine request with
    | none => .closed
    | some headerEnd =>
      match contentLength (request.take headerEnd) with
      | .error e => .refused e
      | .ok n =>
        let request := readBody sizes (n - (request.length - (headerEnd + 4))) sent request
        .request (requestLine request).1 (requestLine request).2 (request.take headerEnd) (request.drop (headerEnd + 4))

/-- What is done with a connection is what is received, and the check of its token. -/
theorem handleClient_eq_receive {F : Type} (s : RestServer F) (sizes : List ℕ) (sent : Text) :
    s.handleClient sizes sent =
      match receive sizes sent with
      | .closed => .closed
      | .refused e => .refused e
      | .request method path headers body =>
        match s.checkAuth headers path with
        | some e => .refused e
        | none => .routed method path body := by
  unfold RestServer.handleClient receive
  cases readHead sizes sent [] with
  | none => rfl
  | some x =>
    obtain ⟨request, ns, rest⟩ := x
    dsimp only
    cases find blankLine request with
    | none => rfl
    | some headerEnd =>
      dsimp only
      cases contentLength (request.take headerEnd) <;> rfl

/-! ### Chunks -/

/-- How much each read may return: something, and in all at least what was sent. -/
structure Splits (sizes : List ℕ) (sent : Text) : Prop where
  positive : ∀ n ∈ sizes, 0 < n
  whole : sent.length ≤ (sizes.map fun n => min n 8192).sum

namespace Splits

variable {n : ℕ} {sizes : List ℕ} {sent : Text}

/-- What is left is split by the sizes that are left. -/
theorem rest (h : Splits (n :: sizes) sent) (k : ℕ) (hk : min (min n 8192) sent.length ≤ k) :
    Splits sizes (sent.drop k) where
  positive m hm := h.positive m (List.mem_cons_of_mem _ hm)
  whole := by
    have hw := h.whole
    rw [List.map_cons, List.sum_cons] at hw
    rw [List.length_drop]
    omega

theorem eq_nil (h : Splits [] sent) : sent = [] := List.length_eq_zero_iff.mp (Nat.le_zero.mp h.whole)

end Splits

/-- However a head arrives, it is read in time, and nothing is lost. -/
theorem readHead_splits {i : ℕ} : ∀ {sizes : List ℕ} {sent request : Text}, Splits sizes sent →
    find blankLine (request ++ sent) = some i → request.length < i + 4 → i + 4 ≤ 64 * 1024 →
    ∃ r ns rest, readHead sizes sent request = some (r, ns, rest) ∧ r ++ rest = request ++ sent ∧
      find blankLine r = some i ∧ Splits ns rest
  | [], sent, request, hs, hfind, hlt, _ => by
    have hlen := length_of_find blankLine_ne_nil hfind
    rw [hs.eq_nil, List.append_nil, show blankLine.length = 4 from rfl] at hlen
    omega
  | n :: sizes, sent, request, hs, hfind, hlt, hlimit => by
    have hlen := length_of_find blankLine_ne_nil hfind
    rw [List.length_append, show blankLine.length = 4 from rfl] at hlen
    have hn := hs.positive n List.mem_cons_self
    have hdata : (sent.take (min n 8192)).length = min (min n 8192) sent.length := List.length_take
    have hne : sent.take (min n 8192) ≠ [] := by
      intro hnil
      rw [hnil, List.length_nil] at hdata
      omega
    have hsplit := append_taken request sent (min n 8192)
    have hrest := hs.rest (sent.take (min n 8192)).length (by omega)
    rw [readHead, if_neg hne]
    cases hf : find blankLine (request ++ sent.take (min n 8192)) with
    | some j =>
      have hj := find_longer blankLine_ne_nil hf ⟨_, hsplit⟩
      rw [hfind] at hj
      cases hj
      rw [if_pos (.inl rfl)]
      exact ⟨_, _, _, rfl, hsplit, hf, hrest⟩
    | none =>
      -- the head has not ended, so there is room for its end
      have hshort : (request ++ sent.take (min n 8192)).length < i + 4 := by
        by_contra hlong
        have htake := find_take blankLine_ne_nil hfind (k := (request ++ sent.take (min n 8192)).length) (by
          rw [show blankLine.length = 4 from rfl]
          omega)
        rw [← List.prefix_iff_eq_take.mp ⟨_, hsplit⟩, hf] at htake
        cases htake
      have hmore : ¬ ((none : Option ℕ).isSome = true ∨ 64 * 1024 < (request ++ sent.take (min n 8192)).length) :=
        not_or.mpr ⟨Bool.false_ne_true, by omega⟩
      rw [if_neg hmore]
      obtain ⟨r, ns, rest, hr, happend, hfound, hleft⟩ :=
        readHead_splits hrest (hsplit.symm ▸ hfind) hshort hlimit
      exact ⟨r, ns, rest, hr, happend.trans hsplit, hfound, hleft⟩

/-- However a body arrives, all of it is read. -/
theorem readBody_splits : ∀ {sizes : List ℕ} {sent : Text} (request : Text), Splits sizes sent →
    readBody sizes sent.length sent request = request ++ sent
  | [], sent, request, hs => by
    rw [hs.eq_nil, List.append_nil]
    rfl
  | n :: sizes, sent, request, hs => by
    have hn := hs.positive n List.mem_cons_self
    have hdata : (sent.take (min n (min 8192 sent.length))).length = min n (min 8192 sent.length) := by
      rw [List.length_take]
      omega
    have hsplit := append_taken request sent (min n (min 8192 sent.length))
    rw [readBody]
    by_cases hnil : sent.take (min n (min 8192 sent.length)) = []
    · rw [if_pos hnil]
      rw [hnil, List.length_nil] at hdata
      rw [List.length_eq_zero_iff.mp (show sent.length = 0 by omega), List.append_nil]
    · have hmissing : sent.length - (sent.take (min n (min 8192 sent.length))).length =
          (sent.drop (sent.take (min n (min 8192 sent.length))).length).length := List.length_drop.symm
      rw [if_neg hnil, hmissing, readBody_splits _ (hs.rest _ (by omega)), hsplit]

/-! ### Well-formed requests -/

structure Request where
  method : Text
  path : Text
  version : Text
  /-- The lines behind the first. -/
  fields : List Text
  body : Text

/-- The head says how long the body is: the first `content-length:` in it is that of
the field, which has the length, or there is none and no body. -/
inductive Announces (head : Text) : ℕ → Prop
  | absent (h : find ContentLength.fieldName (head.map toLower) = none) : Announces head 0
  | inField (pos : ℕ) (v : Text) (h : find ContentLength.fieldName (head.map toLower) = some pos)
      (hline : StartsLine head pos) (hvalue : ContentLength.lengthField head = some v)
      (hdigits : ContentLength.AllDigits v) : Announces head (readNat v)

/-- The length that is announced is used, if it is not too large. -/
theorem Announces.contentLength {head : Text} {n : ℕ} (h : Announces head n) (hn : n ≤ MAX_BODY_SIZE) :
    contentLength head = .ok n := by
  cases h with
  | absent h => exact ContentLength.contentLength_of_none h
  | inField pos v h hline hvalue hdigits =>
    rw [ContentLength.lengthField_eq h hline] at hvalue
    obtain rfl := Option.some.inj hvalue
    have hlt := Nat.lt_of_le_of_lt hn (show MAX_BODY_SIZE < 2 ^ 64 by decide)
    rw [ContentLength.contentLength_of_some h, ContentLength.stoull_valueAt h hdigits, if_neg (Nat.not_le.mpr hlt)]
    dsimp only
    rw [UInt64.toNat_ofNat_of_lt' hlt, if_neg (Nat.not_lt.mpr hn)]

namespace Request

variable (r : Request)

def line : Text := r.method ++ 0x20 :: r.path ++ 0x20 :: r.version

def head : Text := r.line ++ r.fields.flatMap (CRLF ++ ·)

def bytes : Text := r.head ++ blankLine ++ r.body

/-- The head has a method, a path and a version in its first line, ends within the
limit, and says how long the body is, which is not too long. -/
structure WellFormed : Prop where
  method : 0x20 ∉ r.method
  path : 0x20 ∉ r.path
  line : 0x0D ∉ r.line
  ends : find blankLine r.bytes = some r.head.length
  limit : r.head.length + 4 ≤ 64 * 1024
  length : Announces r.head r.body.length
  body : r.body.length ≤ MAX_BODY_SIZE

variable {r}

/-- The first line ends, whether others are behind it or not. -/
theorem bytes_eq (r : Request) : ∃ rest, r.bytes = r.line ++ (CRLF ++ rest) := by
  unfold bytes head
  cases r.fields with
  | nil => exact ⟨CRLF ++ r.body, by simp [blankLine]⟩
  | cons f fs => exact ⟨f ++ fs.flatMap (CRLF ++ ·) ++ blankLine ++ r.body, by simp⟩

theorem WellFormed.requestLine (h : r.WellFormed) : requestLine r.bytes = (r.method, r.path) := by
  obtain ⟨rest, hrest⟩ := r.bytes_eq
  rw [hrest]
  exact RestServer.requestLine_of_parts h.method h.path h.line rest

/-- What is received is the request, however it arrives. -/
theorem WellFormed.receive (h : r.WellFormed) {sizes : List ℕ} (hs : Splits sizes r.bytes) :
    receive sizes r.bytes = .request r.method r.path r.head r.body := by
  have hends : find blankLine ([] ++ r.bytes) = some r.head.length := h.ends
  obtain ⟨read, ns, rest, hread, happend, hfind, hleft⟩ := readHead_splits hs hends (Nat.zero_lt_succ _) h.limit
  rw [List.nil_append] at happend
  have hend := length_of_find blankLine_ne_nil hfind
  rw [show blankLine.length = 4 from rfl] at hend
  have hhead : ∀ n, n ≤ r.head.length → r.bytes.take n = r.head.take n := by
    intro n hn
    rw [bytes, List.append_assoc, List.take_append_of_le_length hn]
  have htake : read.take r.head.length = r.head := by
    have hboth : (read ++ rest).take r.head.length = read.take r.head.length :=
      List.take_append_of_le_length (by omega)
    rw [← hboth, happend, hhead _ (Nat.le_refl _), List.take_length]
  have hmissing : r.body.length - (read.length - (r.head.length + 4)) = rest.length := by
    have hlen := congrArg List.length happend
    rw [bytes, List.length_append, List.length_append, List.length_append, show blankLine.length = 4 from rfl] at hlen
    omega
  have hbody : r.bytes.drop (r.head.length + 4) = r.body := by
    have hlen : r.head.length + 4 = (r.head ++ blankLine).length := by
      rw [List.length_append]
      rfl
    rw [hlen, bytes, List.drop_left]
  unfold Framing.receive
  rw [hread]
  dsimp only
  rw [hfind]
  dsimp only
  rw [htake, h.length.contentLength h.body]
  dsimp only
  rw [hmissing, readBody_splits read hleft, happend, h.requestLine, hbody, hhead _ (Nat.le_refl _), List.take_length]

end Request

/-- **A request is received alike however it arrives**: what is received is its
method, its path, its head and its body, and what is done with it is the same. -/
theorem received_alike {F : Type} (s : RestServer F) {r : Request} (h : r.WellFormed) {sizes₁ sizes₂ : List ℕ}
    (h₁ : Splits sizes₁ r.bytes) (h₂ : Splits sizes₂ r.bytes) :
    receive sizes₁ r.bytes = .request r.method r.path r.head r.body ∧
      receive sizes₂ r.bytes = receive sizes₁ r.bytes ∧
      s.handleClient sizes₂ r.bytes = s.handleClient sizes₁ r.bytes := by
  have hreceived : receive sizes₂ r.bytes = receive sizes₁ r.bytes := (h.receive h₂).trans (h.receive h₁).symm
  refine ⟨h.receive h₁, hreceived, ?_⟩
  rw [handleClient_eq_receive, handleClient_eq_receive, hreceived]

/-- A request with a body of two bytes. -/
def recallRequest : Request where
  method := Utf8.bytes "POST"
  path := Utf8.bytes "/v1/memories/recall"
  version := Utf8.bytes "HTTP/1.1"
  fields := [Utf8.bytes "Content-Length: 2"]
  body := Utf8.bytes "\x7b\x7d"

theorem wellFormed_recall : recallRequest.WellFormed where
  method := by decide
  path := by decide
  line := by decide
  ends := by decide +kernel
  limit := by decide
  length := .inField 35 (Utf8.bytes "2") (by decide +kernel) ⟨by decide, by decide⟩ (by decide +kernel)
    (by decide +kernel)
  body := by decide

/-- It is received in two chunks of which the first ends within the blank line, and
byte by byte. -/
theorem received_recall :
    receive [53, 5] recallRequest.bytes = .request (Utf8.bytes "POST") (Utf8.bytes "/v1/memories/recall")
      (Utf8.bytes "POST /v1/memories/recall HTTP/1.1\r\nContent-Length: 2") (Utf8.bytes "\x7b\x7d") ∧
    receive (List.replicate 58 1) recallRequest.bytes = receive [53, 5] recallRequest.bytes := by
  have hchunks : Splits [53, 5] recallRequest.bytes := ⟨by decide, by decide⟩
  have hbytes : Splits (List.replicate 58 1) recallRequest.bytes := ⟨by decide, by decide⟩
  obtain ⟨hreceived, hsame, -⟩ := received_alike guarded wellFormed_recall hchunks hbytes
  exact ⟨hreceived, hsame⟩

end Framing
end Server
end Amind
