/-
# Static files

The web interface answers a path that is not one of the API with a file below the
web root, or with `index.html` of the root if there is no such file. The path is
decoded, looked for from the root on, and made canonical; what is served must have
a text that starts with that of the root.

`contained_iff` says when only what lies below the root is served, if the paths
that are called canonical are: unless a name beside the root that starts as its
last name does passes for the root, or `index.html` is a link out of it.
-/
import Amind.Lib.CanonicalPath
import Amind.Lib.Cut
import Amind.Lib.Percent
import Amind.Server.Ports

namespace Amind
namespace Server

open Amind.Core Amind.Cut Amind.CanonicalPath

/-- What is asked of the file system. -/
structure Disk where
  weaklyCanonical : Text → Except Thrown Text
  existsAt : Text → Except Thrown Bool
  isRegularFile : Text → Except Thrown Bool
  /-- What is in a file, if it can be opened. -/
  read : Text → Except Thrown (Option Text)

/-- What a path is answered with. -/
inductive Served
  | plain (status : ℕ) (message : String)
  /-- What is in the file at a path. -/
  | file (path : Text) (contentType : String) (content : Text)
  deriving DecidableEq

/-- A path from a directory on. -/
def join (dir path : Text) : Text :=
  if path.head? = some CanonicalPath.slash then path
  else if dir = [] ∨ dir.getLast? = some CanonicalPath.slash then dir ++ path
  else dir ++ CanonicalPath.slash :: path

def urlDecode (encoded : Text) : Text := Percent.decode id encoded

/-- What is sent for a kind of file. -/
def mimeTypes : List (String × String) :=
  [(".html", "text/html; charset=utf-8"), (".htm", "text/html; charset=utf-8"), (".css", "text/css; charset=utf-8"),
   (".js", "application/javascript; charset=utf-8"), (".json", "application/json"), (".png", "image/png"),
   (".jpg", "image/jpeg"), (".jpeg", "image/jpeg"), (".svg", "image/svg+xml"), (".ico", "image/x-icon"),
   (".woff", "font/woff"), (".woff2", "font/woff2"), (".ttf", "font/ttf"), (".map", "application/json")]

/-- A path from its last dot on. -/
def extension (path : Text) : Option Text :=
  if path.contains 0x2E then some (0x2E :: (path.reverse.takeWhile (· ≠ 0x2E)).reverse) else none

def mimeType (path : Text) : String :=
  ((extension path).bind fun ext => (mimeTypes.find? fun m => Utf8.bytes m.1 = ext).map (·.2)).getD
    "application/octet-stream"

def statusText : ℕ → String
  | 200 => "OK"
  | 403 => "Forbidden"
  | 404 => "Not Found"
  | 500 => "Internal Server Error"
  | 502 => "Bad Gateway"
  | _ => "Error"

def httpResponse (status : ℤ) (contentType : String) (body : Text) : Text :=
  Utf8.bytes "HTTP/1.1 " ++ Json.dumpInt status ++ Utf8.bytes " " ++
    Utf8.bytes (if 0 ≤ status then statusText status.toNat else "Error") ++ CRLF ++
    Utf8.bytes "Content-Type: " ++ Utf8.bytes contentType ++ CRLF ++
    Utf8.bytes "Content-Length: " ++ Json.dumpNat body.length ++ CRLF ++
    Utf8.bytes "Access-Control-Allow-Origin: *\r\n" ++
    Utf8.bytes "Access-Control-Allow-Methods: GET, POST, DELETE, OPTIONS\r\n" ++
    Utf8.bytes "Access-Control-Allow-Headers: Content-Type\r\n" ++
    Utf8.bytes "Cache-Control: no-cache\r\n" ++
    Utf8.bytes "Connection: close\r\n\r\n" ++
    body

/-- The response of what is served. -/
def Served.response : Served → Text
  | .plain status message => httpResponse status "text/plain" (Utf8.bytes message)
  | .file _ contentType content => httpResponse 200 contentType content

def indexHtml : Text := Utf8.bytes "index.html"

namespace Disk

variable (disk : Disk)

/-- There is a regular file. -/
def isFile (path : Text) : Except Thrown Bool := do
  if ← disk.existsAt path then disk.isRegularFile path else return false

/-- Serve a file at the path itself. -/
def serveRegular (fullPath : Text) : Except Thrown Served := do
  match ← disk.read fullPath with
  | none => return .plain 500 "Internal Server Error"
  | some content => return .file fullPath (mimeType fullPath) content

/-- Serve `index.html` of the root in place of what is not there. -/
def serveIndex (webRootAbs : Text) : Except Thrown Served := do
  let indexPath := join webRootAbs indexHtml
  if ← disk.existsAt indexPath then
    match ← disk.read indexPath with
    | some content => return .file indexPath "text/html; charset=utf-8" content
    | none => return .plain 404 "Not Found"
  else return .plain 404 "Not Found"

/-- Serve what is at a canonical path, if its text starts with that of the root. -/
def serveFull (webRootAbs fullPath : Text) : Except Thrown Served := do
  if ¬ webRootAbs <+: fullPath then return .plain 403 "Forbidden"
  else if ← disk.isFile fullPath then disk.serveRegular fullPath
  else disk.serveIndex webRootAbs

end Disk

/-- The path that a URL asks for. -/
def decodedPath (urlPath : Text) : Text :=
  if urlDecode urlPath = [CanonicalPath.slash] then CanonicalPath.slash :: indexHtml else urlDecode urlPath

/-- The web interface with the directory of its files. -/
structure Site extends WebServer where
  webRoot : Text

namespace Site

variable (w : Site) (disk : Disk)

def serveFile (urlPath : Text) : Except Thrown Served := do
  let webRootAbs ← disk.weaklyCanonical w.webRoot
  let rest ← substr (decodedPath urlPath) 1 npos
  let fullPath ← disk.weaklyCanonical (join webRootAbs rest)
  disk.serveFull webRootAbs fullPath

/-! ### What is served -/

theorem decodedPath_eq_nil_iff {urlPath : Text} : decodedPath urlPath = [] ↔ urlPath = [] := by
  unfold decodedPath
  split
  · next h =>
    refine ⟨fun hnil => absurd hnil (List.cons_ne_nil _ _), ?_⟩
    rintro rfl
    cases h
  · exact Percent.decode_eq_nil_iff id

/-- What the path has behind its first byte. -/
def restOf (urlPath : Text) : Text := ((decodedPath urlPath).drop 1).take npos.toNat

/-- A path has a first byte unless it is empty. -/
theorem substr_decodedPath (urlPath : Text) : substr (decodedPath urlPath) 1 npos =
    if urlPath = [] then .error .outOfRange else .ok (restOf urlPath) := by
  by_cases hnil : urlPath = []
  · rw [if_pos hnil, decodedPath_eq_nil_iff.mpr hnil]
    rfl
  · have hpos : (1 : UInt64).toNat ≤ (decodedPath urlPath).length :=
      List.length_pos_of_ne_nil fun h => hnil (decodedPath_eq_nil_iff.mp h)
    rw [if_neg hnil]
    exact substr_of_le hpos npos

end Site

namespace Disk

variable {disk : Disk} {webRootAbs fullPath path content : Text} {contentType : String}

theorem serveRegular_eq_file_iff : disk.serveRegular fullPath = .ok (.file path contentType content) ↔
    path = fullPath ∧ contentType = mimeType fullPath ∧ disk.read fullPath = .ok (some content) := by
  unfold serveRegular
  rw [bind_eq_ok]
  constructor
  · rintro ⟨_ | c, hread, h⟩
    · cases h
    · cases h
      exact ⟨rfl, rfl, hread⟩
  · rintro ⟨rfl, rfl, hread⟩
    exact ⟨_, hread, rfl⟩

theorem serveIndex_eq_file_iff : disk.serveIndex webRootAbs = .ok (.file path contentType content) ↔
    path = join webRootAbs indexHtml ∧ contentType = "text/html; charset=utf-8" ∧
      disk.existsAt (join webRootAbs indexHtml) = .ok true ∧
      disk.read (join webRootAbs indexHtml) = .ok (some content) := by
  unfold serveIndex
  dsimp only
  rw [bind_eq_ok]
  constructor
  · rintro ⟨_ | _, hexists, h⟩
    · cases h
    · rw [if_pos rfl, bind_eq_ok] at h
      obtain ⟨_ | c, hread, h⟩ := h
      · cases h
      · cases h
        exact ⟨rfl, rfl, hexists, hread⟩
  · rintro ⟨rfl, rfl, hexists, hread⟩
    refine ⟨true, hexists, ?_⟩
    rw [if_pos rfl, bind_eq_ok]
    exact ⟨_, hread, rfl⟩

theorem serveFull_eq_file_iff : disk.serveFull webRootAbs fullPath = .ok (.file path contentType content) ↔
    webRootAbs <+: fullPath ∧
      (disk.isFile fullPath = .ok true ∧ disk.serveRegular fullPath = .ok (.file path contentType content) ∨
        disk.isFile fullPath = .ok false ∧ disk.serveIndex webRootAbs = .ok (.file path contentType content)) := by
  unfold serveFull
  by_cases hroot : webRootAbs <+: fullPath
  · rw [if_neg (not_not.mpr hroot), bind_eq_ok]
    constructor
    · rintro ⟨_ | _, hfile, h⟩
      · exact ⟨hroot, .inr ⟨hfile, h⟩⟩
      · exact ⟨hroot, .inl ⟨hfile, h⟩⟩
    · rintro ⟨-, ⟨hfile, h⟩ | ⟨hfile, h⟩⟩
      · exact ⟨true, hfile, h⟩
      · exact ⟨false, hfile, h⟩
  · rw [if_pos hroot]
    exact ⟨fun h => (by cases h), fun h => absurd h.1 hroot⟩

end Disk

/-! ### Where it is -/

/-- A path that is called canonical is the one a text names, and names itself. -/
structure Disk.Truthful (disk : Disk) (canonical : Text → Path) : Prop where
  returns : ∀ t c, disk.weaklyCanonical t = .ok c → c = (canonical t).text
  self : ∀ t, canonical (canonical t).text = canonical t

namespace Site

variable (w : Site) (disk : Disk) (canonical : Text → Path)

/-- Where the root is. -/
def root : Path := canonical w.webRoot

/-- Where the file is that a URL asks for. -/
def asked (urlPath : Text) : Path := canonical (join (w.root canonical).text (restOf urlPath))

/-- `index.html` of the root. -/
def indexPath : Text := join (w.root canonical).text indexHtml

/-- If a file is served, it lies below the root. -/
def Contained (urlPath : Text) : Prop :=
  ∀ path contentType content, w.serveFile disk urlPath = .ok (.file path contentType content) →
    w.root canonical ≤ canonical path

/-- The root and the file asked for have been made canonical. -/
structure Reaches (urlPath : Text) : Prop where
  root : disk.weaklyCanonical w.webRoot = .ok (w.root canonical).text
  path : urlPath ≠ []
  asked : disk.weaklyCanonical (join (w.root canonical).text (restOf urlPath)) = .ok (w.asked canonical urlPath).text

/-- The file asked for lies beside the root, and where the last name of the root
ends it has a longer one. -/
structure Beside (urlPath : Text) : Prop extends Reaches w disk canonical urlPath where
  longer : (w.root canonical).Extends (w.asked canonical urlPath)
  isFile : disk.isFile (w.asked canonical urlPath).text = .ok true
  opens : ∃ content, disk.read (w.asked canonical urlPath).text = .ok (some content)

/-- `index.html` is served in place of what is not there, and is a link out of the
root. -/
structure LinkedOut (urlPath : Text) : Prop extends Reaches w disk canonical urlPath where
  passes : w.root canonical ≤ w.asked canonical urlPath ∨ (w.root canonical).Extends (w.asked canonical urlPath)
  missing : disk.isFile (w.asked canonical urlPath).text = .ok false
  exists_index : disk.existsAt (w.indexPath canonical) = .ok true
  opens : ∃ content, disk.read (w.indexPath canonical) = .ok (some content)
  out : ¬ w.root canonical ≤ canonical (w.indexPath canonical)

variable {w disk canonical}

/-- What is served, if what is called canonical is. -/
theorem serveFile_eq_file_iff (h : disk.Truthful canonical) {urlPath path content : Text} {contentType : String} :
    w.serveFile disk urlPath = .ok (.file path contentType content) ↔ w.Reaches disk canonical urlPath ∧
      disk.serveFull (w.root canonical).text (w.asked canonical urlPath).text =
        .ok (.file path contentType content) := by
  unfold serveFile
  rw [bind_eq_ok]
  constructor
  · rintro ⟨r, hr, hserve⟩
    obtain rfl := h.returns _ _ hr
    rw [substr_decodedPath] at hserve
    by_cases hnil : urlPath = []
    · rw [if_pos hnil] at hserve
      cases hserve
    · rw [if_neg hnil, bind_eq_ok] at hserve
      obtain ⟨_, hrest, hserve⟩ := hserve
      cases hrest
      obtain ⟨f, hf, hserve⟩ := bind_eq_ok.mp hserve
      obtain rfl := h.returns _ _ hf
      exact ⟨⟨hr, hnil, hf⟩, hserve⟩
  · rintro ⟨hreaches, hserve⟩
    refine ⟨_, hreaches.root, ?_⟩
    rw [substr_decodedPath, if_neg hreaches.path, bind_eq_ok]
    refine ⟨_, rfl, ?_⟩
    rw [bind_eq_ok]
    exact ⟨_, hreaches.asked, hserve⟩

/-- A longer name does not lead below. -/
theorem not_le_of_extends {r p : Path} (h : r.Extends p) : ¬ r ≤ p := by
  obtain ⟨front, last, more, rest, hr, hp, hmore⟩ := h
  intro hle
  change r.names <+: p.names at hle
  rw [hr, hp, List.prefix_append_right_inj, List.cons_prefix_cons] at hle
  exact hmore (List.append_right_eq_self.mp hle.1.symm)

/-- **What is served from outside the root.** With true canonical paths, what is
served lies below the root unless it is beside it with a longer name, or
`index.html` is a link out of it. -/
theorem contained_iff (h : disk.Truthful canonical) (urlPath : Text) : w.Contained disk canonical urlPath ↔
    ¬ w.Beside disk canonical urlPath ∧ ¬ w.LinkedOut disk canonical urlPath := by
  constructor
  · intro hc
    constructor
    · intro hb
      obtain ⟨content, hread⟩ := hb.opens
      have hserved := Disk.serveRegular_eq_file_iff.mpr ⟨rfl, rfl, hread⟩
      have hroot := Path.text_prefix_iff.mpr (.inr hb.longer)
      have hfull := Disk.serveFull_eq_file_iff.mpr ⟨hroot, .inl ⟨hb.isFile, hserved⟩⟩
      have hle := hc _ _ _ ((serveFile_eq_file_iff h).mpr ⟨hb.toReaches, hfull⟩)
      rw [show canonical (w.asked canonical urlPath).text = w.asked canonical urlPath from h.self _] at hle
      exact not_le_of_extends hb.longer hle
    · intro hl
      obtain ⟨content, hread⟩ := hl.opens
      have hserved := Disk.serveIndex_eq_file_iff.mpr ⟨rfl, rfl, hl.exists_index, hread⟩
      have hfull := Disk.serveFull_eq_file_iff.mpr ⟨Path.text_prefix_iff.mpr hl.passes, .inr ⟨hl.missing, hserved⟩⟩
      exact hl.out (hc _ _ _ ((serveFile_eq_file_iff h).mpr ⟨hl.toReaches, hfull⟩))
  · rintro ⟨hb, hl⟩ path contentType content hserved
    obtain ⟨hreaches, hfull⟩ := (serveFile_eq_file_iff h).mp hserved
    obtain ⟨hroot, hfull⟩ := Disk.serveFull_eq_file_iff.mp hfull
    have hpasses := Path.text_prefix_iff.mp hroot
    rcases hfull with ⟨hfile, hserved⟩ | ⟨hfile, hserved⟩
    · obtain ⟨rfl, -, hread⟩ := Disk.serveRegular_eq_file_iff.mp hserved
      rw [show canonical (w.asked canonical urlPath).text = w.asked canonical urlPath from h.self _]
      exact hpasses.resolve_right fun hlonger => hb ⟨hreaches, hlonger, hfile, content, hread⟩
    · obtain ⟨rfl, -, hexists, hread⟩ := Disk.serveIndex_eq_file_iff.mp hserved
      by_contra hout
      exact hl ⟨hreaches, hpasses, hfile, hexists, ⟨content, hread⟩, hout⟩

end Site

/-! ### A disk without links -/

/-- The disk has these files, each at its text, and every path is the normal one. -/
def plainDisk (files : List (Text × Text)) : Disk where
  weaklyCanonical t := .ok (normal t).text
  existsAt t := .ok (files.any fun f => t = f.1 ∨ t ++ [CanonicalPath.slash] <+: f.1)
  isRegularFile t := .ok (files.any fun f => f.1 = t)
  read t := .ok ((files.find? fun f => f.1 = t).map (·.2))

theorem truthful_plainDisk (files : List (Text × Text)) : (plainDisk files).Truthful normal where
  returns _ _ h := (Except.ok.inj h).symm
  self t := normal_text (normal t)

/-- The files of the web interface, and others beside them. -/
def dashboard : Site where
  apiPort := 8080
  apiToken := []
  webRoot := Utf8.bytes "/srv/web"

def dashboardDisk : Disk :=
  plainDisk [(Utf8.bytes "/srv/web/index.html", Utf8.bytes "hello"), (Utf8.bytes "/srv/web2/secret", Utf8.bytes "key")]

/-- What lies in the root is served from there. -/
theorem contained_index : dashboard.Contained dashboardDisk normal (Utf8.bytes "/") := by
  refine (Site.contained_iff (truthful_plainDisk _) _).mpr ⟨fun h => ?_, fun h => ?_⟩
  · exact Site.not_le_of_extends h.longer (by decide)
  · exact absurd h.missing (by decide)

/-- A file in a directory beside the root, which has a longer name, is served. -/
theorem served_beside : dashboardDisk.Truthful normal ∧
    ¬ dashboard.Contained dashboardDisk normal (Utf8.bytes "/../web2/secret") := by
  refine ⟨truthful_plainDisk _, fun h => ?_⟩
  have hserved : dashboard.serveFile dashboardDisk (Utf8.bytes "/../web2/secret") =
      .ok (.file (Utf8.bytes "/srv/web2/secret") "application/octet-stream" (Utf8.bytes "key")) := by decide +kernel
  exact absurd (h _ _ _ hserved) (by decide)

end Server
end Amind
