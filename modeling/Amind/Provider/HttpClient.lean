/-
# The HTTP client

What the client makes of the bytes it sends and receives: the request it builds, how
much of a connection it reads for a response, and what it takes the response to say.
Of a connection that is kept it reads until the response is whole as far as its head
says; `readHttpResponse_eq` has this as a predicate of the bytes alone, so that the
pieces in which they come do not matter to it.

The connection itself, TLS and the timeouts are left out: a response comes in pieces,
and then the peer closes, or nothing more comes.
-/
import Amind.Lib.Arrival
import Amind.Server.Proxy

namespace Amind
namespace Provider
namespace HttpClient

open Amind.Core Amind.Auth Amind.Search Amind.Server
open Amind.Json (hexVal)

/-! ### The request -/

/-- `Host`, the kind of the connection, the length of a body if there is one, and what
else is asked for. -/
def requestFields (host body : Text) (extraHeaders : List (Text × Text)) (keepAlive : Bool) : List Text :=
  [Utf8.bytes "Host: " ++ host,
    if keepAlive then Utf8.bytes "Connection: keep-alive" else Utf8.bytes "Connection: close"] ++
  (if body = [] then []
    else [Utf8.bytes "Content-Type: application/json", Utf8.bytes "Content-Length: " ++ Json.dumpNat body.length]) ++
  extraHeaders.map fun h => h.1 ++ Utf8.bytes ": " ++ h.2

def buildHttpRequest (method host path body : Text) (extraHeaders : List (Text × Text)) (keepAlive : Bool) : Text :=
  method ++ Utf8.bytes " " ++ path ++ Utf8.bytes " HTTP/1.1\r\n" ++
    (requestFields host body extraHeaders keepAlive).flatMap (· ++ CRLF) ++ CRLF ++ body

/-! ### Heads -/

/-- Lines make a head. -/
theorem isHead_lines : ∀ {fields : List Text} {line : Text}, line ≠ [] → 0x0D ∉ line →
    (∀ f ∈ fields, f ≠ [] ∧ 0x0D ∉ f) → RestServer.IsHead (line ++ fields.flatMap (CRLF ++ ·))
  | [], line, hne, hline, _ => by
    rw [List.flatMap_nil, List.append_nil]
    exact .of_line hne hline
  | f :: fs, line, hne, hline, hfields => by
    obtain ⟨hf, hfs⟩ := List.forall_mem_cons.mp hfields
    rw [List.flatMap_cons, List.append_assoc, ← List.append_assoc]
    exact (isHead_lines hf.1 hf.2 hfs).cons hne hline

/-! ### Lines of a head -/

section Lines

variable {name : Text} {g : UInt8 → UInt8}

theorem find_nil (hn : name ≠ []) : find name [] = none := if_neg hn

/-- A name is not where one of its bytes is not. -/
theorem find_of_not_mem {b : UInt8} (hb : b ∈ name) {s : Text} (hs : b ∉ s) : find name s = none := by
  cases h : find name s with
  | none => rfl
  | some i => exact absurd (List.mem_of_mem_drop ((prefix_of_find h).subset hb)) hs

/-- A line end stays one. -/
theorem map_line (hg : g 0x0D = 0x0D ∧ g 0x0A = 0x0A) (line s : Text) :
    (line ++ (CRLF ++ s)).map g = line.map g ++ 0x0D :: ([] ++ 0x0A :: s.map g) := by
  have hcrlf : CRLF.map g = [0x0D, 0x0A] := by
    rw [CRLF, List.map_cons, List.map_cons, hg.1, hg.2]
    rfl
  rw [List.map_append, List.map_append, hcrlf]
  rfl

/-- A name that is in no line is not in the head, as it is or in lower case. -/
theorem find_lines_none (hg : g 0x0D = 0x0D ∧ g 0x0A = 0x0A) (hreturn : 0x0D ∉ name) (hfeed : 0x0A ∉ name)
    (hn : name ≠ []) : ∀ {lines : List Text} {line : Text}, find name (line.map g) = none →
      (∀ l ∈ lines, find name (l.map g) = none) → find name ((line ++ lines.flatMap (CRLF ++ ·)).map g) = none
  | [], line, hline, _ => by
    rw [List.flatMap_nil, List.append_nil]
    exact hline
  | l :: ls, line, hline, hall => by
    obtain ⟨hl, hls⟩ := List.forall_mem_cons.mp hall
    rw [List.flatMap_cons, List.append_assoc, map_line hg]
    exact find_append_cons_none hreturn hn hline
      (find_append_cons_none hfeed hn (find_nil hn) (find_lines_none hg hreturn hfeed hn hl hls))

/-- What is found behind a line without the name. -/
theorem find_line (hg : g 0x0D = 0x0D ∧ g 0x0A = 0x0A) (hreturn : 0x0D ∉ name) (hfeed : 0x0A ∉ name) (hn : name ≠ [])
    {line : Text} (hline : find name (line.map g) = none) (s : Text) :
    find name ((line ++ (CRLF ++ s)).map g) = (find name (s.map g)).map (· + (line.length + 2)) := by
  rw [map_line hg, find_append_cons hreturn hn _ hline, find_append_cons hfeed hn _ (find_nil hn), List.length_map,
    Option.map_map]
  congr 1
  funext pos
  simp only [Function.comp_apply, List.length_nil]
  omega

/-- A name is found where the first line with it starts. -/
theorem find_lines (hg : g 0x0D = 0x0D ∧ g 0x0A = 0x0A) (hreturn : 0x0D ∉ name) (hfeed : 0x0A ∉ name) (hn : name ≠ [])
    {named : Text} (hnamed : name <+: named.map g) (back : List Text) :
    ∀ {front : List Text} {line : Text}, find name (line.map g) = none →
      (∀ l ∈ front, find name (l.map g) = none) →
      ∃ pos, find name ((line ++ (front ++ named :: back).flatMap (CRLF ++ ·)).map g) = some pos ∧
        StartsLine (line ++ (front ++ named :: back).flatMap (CRLF ++ ·)) pos ∧
        (line ++ (front ++ named :: back).flatMap (CRLF ++ ·)).drop pos = named ++ back.flatMap (CRLF ++ ·)
  | [], line, hline, _ => by
    have hstart : find name ((named ++ back.flatMap (CRLF ++ ·)).map g) = some 0 := by
      refine find_of_starts (hnamed.trans ?_)
      rw [List.map_append]
      exact List.prefix_append _ _
    rw [List.nil_append, List.flatMap_cons, List.append_assoc]
    refine ⟨line.length + 2, ?_, ⟨Nat.le_add_left _ _, ?_⟩, ?_⟩
    · rw [find_line hg hreturn hfeed hn hline, hstart, Option.map_some, Nat.zero_add]
    · rw [Nat.add_sub_cancel, List.drop_left]
      exact List.prefix_append _ _
    · rw [← List.drop_drop, List.drop_left]
      rfl
  | l :: front, line, hline, hall => by
    obtain ⟨hl, hfront⟩ := List.forall_mem_cons.mp hall
    obtain ⟨pos, hfind, ⟨htwo, hcrlf⟩, hdrop⟩ := find_lines hg hreturn hfeed hn hnamed back hl hfront
    have hlen : (line ++ CRLF).length = line.length + 2 := by
      rw [List.length_append]
      rfl
    have hbehind : ∀ k s, (line ++ (CRLF ++ s)).drop (k + (line.length + 2)) = s.drop k := by
      intro k s
      rw [Nat.add_comm, ← List.drop_drop, ← List.append_assoc, ← hlen, List.drop_left]
    rw [List.cons_append, List.flatMap_cons, List.append_assoc]
    refine ⟨pos + (line.length + 2), ?_, ⟨by omega, ?_⟩, ?_⟩
    · rw [find_line hg hreturn hfeed hn hline, hfind, Option.map_some]
    · rw [show pos + (line.length + 2) - 2 = pos - 2 + (line.length + 2) by omega, hbehind]
      exact hcrlf
    · rw [hbehind]
      exact hdrop

/-- Both ways of looking for a name leave the line ends. -/
theorem id_lineEnd : id (0x0D : UInt8) = 0x0D ∧ id (0x0A : UInt8) = 0x0A := ⟨rfl, rfl⟩

theorem toLower_lineEnd : toLower 0x0D = 0x0D ∧ toLower 0x0A = 0x0A := by decide

end Lines

/-! ### Chunks -/

/-- `std::stoull` of a text of base 16. -/
def stoullHex (s : Text) : Option UInt64 :=
  let s := s.dropWhile isSpace
  let negative : Bool := s.head? = some 0x2D
  let s := if negative ∨ s.head? = some 0x2B then s.tail else s
  -- a `0x` counts if there is a digit behind it
  let prefixed : Bool := (s.take 2 = Utf8.bytes "0x" ∨ s.take 2 = Utf8.bytes "0X") ∧
    (s.drop 2).head?.any fun b => (hexVal b).isSome
  let digits := (if prefixed then s.drop 2 else s).takeWhile fun b => (hexVal b).isSome
  let n := digits.foldl (fun n b => 16 * n + (hexVal b).getD 0) 0
  if digits = [] then none
  else if 2 ^ 64 ≤ n then none
  else some (if negative then 0 - UInt64.ofNat n else UInt64.ofNat n)

/-- The loop of `decodeChunked`, which need not end: a size may lead back. Positions
are of 64 bits. -/
def decodeFrom (data : Text) : ℕ → ℕ → Text → Option Text
  | 0, _, _ => none
  | fuel + 1, pos, result =>
    if data.length ≤ pos then some result
    else
      match find CRLF (data.drop pos) with
      | none => some result
      | some i =>
        match stoullHex ((data.drop pos).take i) with
        | none => some result
        | some chunkSize =>
          if chunkSize = 0 then some result
          else
            let pos := pos + i + 2
            if data.length < (pos + chunkSize.toNat) % 2 ^ 64 then some result
            else
              decodeFrom data fuel ((pos + chunkSize.toNat + 2) % 2 ^ 64)
                (result ++ (data.drop pos).take chunkSize.toNat)

/-- The body of the chunks, if the loop ends. -/
def decodeChunked (fuel : ℕ) (data : Text) : Option Text := decodeFrom data fuel 0 []

/-! ### The response -/

structure Response where
  statusCode : ℤ := 0
  body : Text := []
  deriving DecidableEq

def transferChunked : Text := Utf8.bytes "Transfer-Encoding: chunked"

def lengthName : Text := Utf8.bytes "Content-Length: "

/-- What ends the last chunk, behind another one. -/
def lastChunk : Text := Utf8.bytes "\r\n0\r\n\r\n"

/-- The three characters behind the first blank of the first line, as a number. -/
def statusCode (responseData : Text) : ℤ :=
  match find CRLF responseData with
  | none => 0
  | some statusEnd =>
    let statusLine := responseData.take statusEnd
    match find [0x20] statusLine with
    | none => 0
    | some sp1 => (Amind.Config.stoi ((statusLine.drop (sp1 + 1)).take 3)).getD 500

/-- The body, decoded if the head says it comes in chunks. -/
def bodyOf (fuel : ℕ) (responseData : Text) : Option Text :=
  match find blankLine responseData with
  | none => some []
  | some bodyStart =>
    let rawBody := responseData.drop (bodyStart + 4)
    match find transferChunked responseData with
    | none => some rawBody
    | some tePos => if tePos < bodyStart then decodeChunked fuel rawBody else some rawBody

/-- What a response says. An empty one is an error, and there is none if the decoding
does not end. -/
def parseHttpResponse (fuel : ℕ) (responseData : Text) : Option (Except String Response) :=
  if responseData = [] then some (.error "empty response")
  else (bodyOf fuel responseData).map fun body => .ok ⟨statusCode responseData, body⟩

/-! ### Reading -/

/-- The length a head announces: zero if there is none, or it is not a number. -/
def announced (hdr : Text) : ℕ :=
  match find lengthName hdr with
  | none => 0
  | some clPos => ((stoull (upTo CRLF (hdr.drop (clPos + 16)))).map UInt64.toNat).getD 0

/-- The variables of the loop that reads. -/
structure Reading where
  responseData : Text := []
  headersDone : Bool := false
  isChunked : Bool := false
  contentLength : ℕ := 0
  hdrEndPos : ℕ := 0

namespace Reading

/-- A piece arrives. -/
def append (r : Reading) (piece : Text) : Reading :=
  let responseData := r.responseData ++ piece
  if r.headersDone then { r with responseData }
  else
    match find blankLine responseData with
    | none => { r with responseData }
    | some hdrEndPos =>
      let hdr := responseData.take hdrEndPos
      if (find transferChunked hdr).isSome then
        { responseData, headersDone := true, isChunked := true, contentLength := 0, hdrEndPos }
      else { responseData, headersDone := true, isChunked := false, contentLength := announced hdr, hdrEndPos }

/-- The end of the body is detected. -/
def ended (r : Reading) : Bool :=
  r.headersDone &&
    if r.isChunked then (find lastChunk (r.responseData.drop (r.hdrEndPos + 4))).isSome
    else 0 < r.contentLength && r.contentLength ≤ r.responseData.length - (r.hdrEndPos + 4)

end Reading

/-- What comes of reading: the response ended and some pieces are behind it, or it is
all that comes. -/
inductive Received
  | ended (responseData : Text) (rest : List Text)
  | all (responseData : Text)
  deriving DecidableEq

/-- Read a response. -/
def readHttpResponse (detectEnd : Bool) : List Text → Reading → Received
  | [], r => .all r.responseData
  | piece :: pieces, r =>
    let r := r.append piece
    if detectEnd && r.ended then .ended r.responseData pieces else readHttpResponse detectEnd pieces r

/-! ### The response is whole -/

/-- The body is whole, as far as the head says. -/
def wholeBody (hdr body : Text) : Bool :=
  if (find transferChunked hdr).isSome then (find lastChunk body).isSome
  else 0 < announced hdr && announced hdr ≤ body.length

/-- What was read is a whole response. -/
def whole (responseData : Text) : Bool :=
  match find blankLine responseData with
  | none => false
  | some hdrEndPos => wholeBody (responseData.take hdrEndPos) (responseData.drop (hdrEndPos + 4))

namespace Reading

/-- What the variables are once some bytes were read. -/
def of (responseData : Text) : Reading := append {} responseData

@[simp] theorem responseData_append (r : Reading) (piece : Text) :
    (r.append piece).responseData = r.responseData ++ piece := by
  unfold append
  dsimp only
  split
  · rfl
  · split
    · rfl
    · split <;> rfl

@[simp] theorem responseData_of (s : Text) : (of s).responseData = s := responseData_append {} s

theorem of_nil : of [] = {} := rfl

theorem of_eq_of_none {s : Text} (h : find blankLine s = none) : of s = { responseData := s } := by
  unfold of append
  dsimp only
  rw [List.nil_append, h]
  rfl

theorem of_eq_of_some {s : Text} {i : ℕ} (h : find blankLine s = some i) :
    of s = { responseData := s, headersDone := true, isChunked := (find transferChunked (s.take i)).isSome,
             contentLength := if (find transferChunked (s.take i)).isSome then 0 else announced (s.take i),
             hdrEndPos := i } := by
  unfold of append
  dsimp only
  rw [List.nil_append, h]
  dsimp only
  rw [if_neg Bool.false_ne_true]
  cases find transferChunked (s.take i) <;> rfl

/-- The variables do not depend on the pieces: the head is the first there is. -/
theorem append_of (s piece : Text) : (of s).append piece = of (s ++ piece) := by
  cases h : find blankLine s with
  | none =>
    rw [of_eq_of_none h]
    rfl
  | some i =>
    have hlen := length_of_find blankLine_ne_nil h
    have hlong := find_longer blankLine_ne_nil h (List.prefix_append s piece)
    have htake : (s ++ piece).take i = s.take i := List.take_append_of_le_length (by omega)
    rw [of_eq_of_some h, of_eq_of_some hlong, htake]
    rfl

theorem ended_of (s : Text) : (of s).ended = whole s := by
  cases h : find blankLine s with
  | none =>
    rw [of_eq_of_none h, whole, h]
    rfl
  | some i =>
    have hlen := length_of_find blankLine_ne_nil h
    rw [of_eq_of_some h, whole, h]
    unfold ended wholeBody
    dsimp only
    rw [Bool.true_and, List.length_drop]
    cases find transferChunked (s.take i) <;> rfl

end Reading

/-- **The client reads until the response is whole**, where the connection is kept. -/
theorem readHttpResponse_eq : ∀ (pieces : List Text) (s : Text),
    readHttpResponse true pieces (.of s) =
      match Arrival.readUntil whole pieces s with
      | some (responseData, rest) => .ended responseData rest
      | none => .all (s ++ pieces.flatten)
  | [], s => by
    rw [readHttpResponse, Reading.responseData_of, List.flatten_nil, List.append_nil]
    rfl
  | piece :: pieces, s => by
    rw [readHttpResponse, Reading.append_of, Reading.ended_of, Reading.responseData_of, Arrival.readUntil]
    cases h : whole (s ++ piece) with
    | true => rfl
    | false =>
      rw [Bool.and_false, if_neg Bool.false_ne_true, if_neg Bool.false_ne_true, readHttpResponse_eq pieces (s ++ piece),
        List.flatten_cons, List.append_assoc]

end HttpClient
end Provider
end Amind
