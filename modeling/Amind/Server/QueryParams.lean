/-
# Query parameters

The handlers of the lists find a parameter in the path of a request by searching
the query for its name and an equals sign, wherever they stand. The name may be the
end of a longer one, or run over the pairs before it. For a query of encoded pairs,
what is found is the value of the first pair up to the name of which the query ends
with the name asked for (`extractQueryParam_requestPath`); `extract_iff` says when it
is that of the first pair with this name.
-/
import Amind.Core.MemoryRecord
import Amind.Lib.Percent
import Amind.Lib.Search

namespace Amind
namespace Server

open Amind.Core Amind.Search

/-- Decode a query. A plus sign is a blank. -/
def queryDecode (src : Text) : Text := Percent.decode (fun b => if b = 0x2B then 0x20 else b) src

def extractQueryParam (path key : Text) : Text :=
  match find [0x3F] path with
  | none => []
  | some qmark =>
    let query := path.drop (qmark + 1)
    let target := key ++ [0x3D]
    match find target query with
    | none => []
    | some pos => queryDecode (upTo [0x26] (query.drop (pos + target.length)))

/-! ### Queries -/

/-- A way to write names and values, so that the signs between them are not theirs. -/
structure QueryEncoding extends Percent.Encoding where
  keep_and : keep 0x26 = false
  keep_equals : keep 0x3D = false
  keep_plus : keep 0x2B = false

namespace QueryEncoding

variable (e : QueryEncoding)

def query : List (Text × Text) → Text
  | [] => []
  | [p] => e.encode p.1 ++ 0x3D :: e.encode p.2
  | p :: q :: pairs => e.encode p.1 ++ 0x3D :: (e.encode p.2 ++ 0x26 :: query (q :: pairs))

/-- The path of a request with a query. -/
def requestPath (base : Text) (pairs : List (Text × Text)) : Text := base ++ 0x3F :: e.query pairs

/-- The query up to the name of a pair that follows others. -/
def upToName (front : List (Text × Text)) (name : Text) : Text :=
  (front.flatMap fun p => e.encode p.1 ++ 0x3D :: (e.encode p.2 ++ [0x26])) ++ e.encode name

/-- The first pair up to the name of which the query ends with the key. `before` are
the pairs that are passed over. -/
def firstRead (key : Text) : List (Text × Text) → List (Text × Text) → Option (Text × Text)
  | _, [] => none
  | front, p :: pairs => if key <:+ e.upToName front p.1 then some p else firstRead key (front ++ [p]) pairs

variable {e}

theorem decode_encode (s : Text) : queryDecode (e.encode s) = s := by
  refine Percent.Encoding.decode_encode (fun b hb => if_neg ?_) s
  rintro rfl
  rw [e.keep_plus] at hb
  cases hb

theorem noEquals (s : Text) : 0x3D ∉ e.encode s :=
  Percent.Encoding.not_mem_encode e.keep_equals (by decide) (by decide) s

theorem noAnd (s : Text) : 0x26 ∉ e.encode s := Percent.Encoding.not_mem_encode e.keep_and (by decide) (by decide) s

theorem upToName_concat (front : List (Text × Text)) (p : Text × Text) (name : Text) :
    e.upToName (front ++ [p]) name =
      e.upToName front p.1 ++ 0x3D :: (e.encode p.2 ++ 0x26 :: e.encode name) := by
  simp [upToName, List.append_assoc]

/-- A value ends at the sign behind it. -/
theorem upTo_encode (s t : Text) : upTo [0x26] (e.encode s ++ 0x26 :: t) = e.encode s := by
  rw [upTo_eq_take (find_singleton (noAnd s) t), List.take_left]

theorem upTo_encode_self (s : Text) : upTo [0x26] (e.encode s) = e.encode s := by
  rw [upTo, find_of_head_not_mem rfl (noAnd s)]

/-- What stands behind the key and its equals sign begins with the value of the
first pair that reads so. -/
theorem behind_query {key : Text} : ∀ (front pairs : List (Text × Text)) {before : Text},
    (∀ name, before ++ e.encode name = e.upToName front name) →
    (behind key 0x3D before (e.query pairs)).map (fun t => queryDecode (upTo [0x26] t)) =
      (e.firstRead key front pairs).map (·.2)
  | _, [], _, _ => rfl
  | front, [p], before, h => by
    rw [query, behind_append (noEquals p.1), behind, firstRead, h p.1]
    by_cases hread : key <:+ e.upToName front p.1
    · rw [if_pos ⟨rfl, hread⟩, if_pos hread, Option.map_some, upTo_encode_self, decode_encode]
      rfl
    · have hnone : behind key 0x3D (e.upToName front p.1 ++ [0x3D]) (e.encode p.2) = none := by
        have happend : behind key 0x3D (e.upToName front p.1 ++ [0x3D]) (e.encode p.2 ++ []) = _ :=
          behind_append (noEquals p.2) _ _
        rwa [List.append_nil] at happend
      rw [if_neg fun hx => hread hx.2, if_neg hread, hnone]
      rfl
  | front, p :: q :: pairs, before, h => by
    rw [query, behind_append (noEquals p.1), behind, firstRead, h p.1]
    by_cases hread : key <:+ e.upToName front p.1
    · rw [if_pos ⟨rfl, hread⟩, if_pos hread, Option.map_some, upTo_encode, decode_encode]
      rfl
    · rw [if_neg fun hx => hread hx.2, if_neg hread, behind_append (noEquals p.2), behind,
        if_neg fun hx => absurd hx.1 (by decide)]
      refine behind_query (front ++ [p]) (q :: pairs) fun name => ?_
      rw [upToName_concat]
      simp

variable (e) in
/-- What is found in the path of a request. -/
theorem extractQueryParam_requestPath {base : Text} (hbase : 0x3F ∉ base) (pairs : List (Text × Text)) (key : Text) :
    extractQueryParam (e.requestPath base pairs) key = ((e.firstRead key [] pairs).map (·.2)).getD [] := by
  have hquery : (e.requestPath base pairs).drop (base.length + 1) = e.query pairs := by
    rw [requestPath, ← List.drop_drop, List.drop_left]
    rfl
  have hbehind : (behind key 0x3D [] (e.query pairs)).map (fun t => queryDecode (upTo [0x26] t)) =
      (e.firstRead key [] pairs).map (·.2) := behind_query [] pairs fun name => rfl
  rw [← hbehind, behind_eq]
  unfold extractQueryParam
  rw [requestPath, find_singleton hbase, ← requestPath]
  dsimp only
  rw [hquery, List.length_append, List.length_singleton]
  cases find (key ++ [0x3D]) (e.query pairs) <;> rfl

/-! ### The pair that is asked for -/

/-- The value of the first pair with a name. -/
def valueOf (key : Text) (pairs : List (Text × Text)) : Text :=
  ((pairs.find? fun p => p.1 = key).map (·.2)).getD []

variable (e) in
/-- The first pair that reads as the key is named so, or has the value that is asked
for all the same. If none reads so, there is no such value, or it is empty. -/
structure Clear (key : Text) (pairs : List (Text × Text)) : Prop where
  read : ∀ p, e.firstRead key [] pairs = some p → p.1 = key ∨ p.2 = valueOf key pairs
  missing : e.firstRead key [] pairs = none → valueOf key pairs = []

variable {key : Text}

theorem reads_of_firstRead : ∀ {pairs front : List (Text × Text)} {p : Text × Text},
    e.firstRead key front pairs = some p → p ∈ pairs ∧ ∃ before, key <:+ e.upToName before p.1
  | q :: pairs, front, p, h => by
    rw [firstRead] at h
    split at h
    · next hread =>
      obtain rfl := Option.some.inj h
      exact ⟨List.mem_cons_self, front, hread⟩
    · obtain ⟨hmem, hread⟩ := reads_of_firstRead h
      exact ⟨List.mem_cons_of_mem _ hmem, hread⟩

/-- A pair with the name reads as the key wherever it stands, or nowhere. -/
theorem reads_iff (front : List (Text × Text)) : key <:+ e.upToName front key ↔ key <:+ e.encode key := by
  constructor
  · intro h
    exact List.suffix_of_suffix_length_le h (List.suffix_append _ _) (Percent.Encoding.length_le_encode key)
  · intro h
    exact h.trans (List.suffix_append _ _)

/-- A pair with the name that is read is the first one. -/
theorem find_of_firstRead : ∀ {pairs front : List (Text × Text)} {p : Text × Text},
    e.firstRead key front pairs = some p → p.1 = key → pairs.find? (fun p => p.1 = key) = some p
  | q :: pairs, front, p, h, hp => by
    rw [firstRead] at h
    split at h
    · obtain rfl := Option.some.inj h
      exact List.find?_cons_of_pos (by simp [hp])
    · next hread =>
      obtain ⟨-, before, hreads⟩ := reads_of_firstRead h
      have hq : q.1 ≠ key := by
        intro hq
        rw [hq, reads_iff] at hread
        rw [hp, reads_iff] at hreads
        exact hread hreads
      rw [List.find?_cons_of_neg (by simp [hq])]
      exact find_of_firstRead h hp

theorem firstRead_eq_none_iff : ∀ {pairs front : List (Text × Text)},
    key <:+ e.encode key → e.firstRead key front pairs = none → pairs.find? (fun p => p.1 = key) = none
  | [], _, _, _ => rfl
  | q :: pairs, front, hkey, h => by
    rw [firstRead] at h
    split at h
    · cases h
    · next hread =>
      have hq : q.1 ≠ key := by
        intro hq
        rw [hq, reads_iff] at hread
        exact hread hkey
      rw [List.find?_cons_of_neg (by simp [hq])]
      exact firstRead_eq_none_iff hkey h

/-- A key that is written as it is, and that no other name ends with, is clear. -/
theorem clear_of_names {pairs : List (Text × Text)} (hkey : e.encode key = key)
    (hnames : ∀ p ∈ pairs, key <:+ e.encode p.1 → p.1 = key) : e.Clear key pairs where
  read p hp := by
    obtain ⟨hmem, front, hread⟩ := reads_of_firstRead hp
    refine .inl (hnames p hmem ?_)
    rcases List.suffix_or_suffix_of_suffix hread (List.suffix_append _ _) with h | h
    · exact h
    · obtain ⟨m, hm⟩ := h
      obtain ⟨t, ht⟩ := hread
      rw [← hm, upToName, ← List.append_assoc] at ht
      have hfront := List.append_cancel_right ht
      rcases List.eq_nil_or_concat front with rfl | ⟨front, q, rfl⟩
      · obtain ⟨-, rfl⟩ := List.append_eq_nil_iff.mp hfront
        exact ⟨[], hm.symm⟩
      · rw [List.concat_eq_append, List.flatMap_append, List.flatMap_singleton, ← List.cons_append, ← List.append_assoc,
          ← List.append_assoc] at hfront
        rcases List.suffix_concat_iff.mp ⟨t, hfront⟩ with rfl | ⟨u, rfl, -⟩
        · exact ⟨[], hm.symm⟩
        · -- the sign in front of the name is not in the key
          have hand : 0x26 ∈ e.encode key := by
            rw [hkey, ← hm]
            exact List.mem_append_left _ (List.mem_append_right _ List.mem_cons_self)
          exact absurd hand (noAnd key)
  missing h := by
    have hnone := firstRead_eq_none_iff (by rw [hkey]) h
    rw [valueOf, hnone]
    rfl

/-- **When a parameter is found by its name.** For a query of encoded pairs, the
value that is found is that of the first pair with the name if the query is clear
about it. -/
theorem extract_iff {base : Text} (hbase : 0x3F ∉ base) (pairs : List (Text × Text)) (key : Text) :
    extractQueryParam (e.requestPath base pairs) key = valueOf key pairs ↔ e.Clear key pairs := by
  rw [extractQueryParam_requestPath e hbase]
  constructor
  · intro h
    refine ⟨fun p hp => .inr ?_, fun hnone => ?_⟩
    · rw [hp] at h
      exact h
    · rw [hnone] at h
      exact h.symm
  · intro h
    cases hread : e.firstRead key [] pairs with
    | none => exact (h.missing hread).symm
    | some p =>
      rcases h.read p hread with hp | hp
      · rw [valueOf, find_of_firstRead hread hp]
      · exact hp

end QueryEncoding

/-! ### Letters and digits -/

/-- Letters, digits and four signs are written as they are. -/
def component : QueryEncoding where
  keep b := (0x30 ≤ b ∧ b ≤ 0x39) ∨ (0x41 ≤ b ∧ b ≤ 0x5A) ∨ (0x61 ≤ b ∧ b ≤ 0x7A) ∨
    b = 0x2D ∨ b = 0x2E ∨ b = 0x5F ∨ b = 0x7E
  digit n := UInt8.ofNat (if n < 10 then 48 + n else 55 + n)
  digit_val := by decide
  keep_percent := by decide
  keep_and := by decide
  keep_equals := by decide
  keep_plus := by decide

/-- The page is found in front of its length. -/
theorem extract_page : extractQueryParam (component.requestPath (Utf8.bytes "/v1/memories/list")
    [(Utf8.bytes "page", Utf8.bytes "2"), (Utf8.bytes "per_page", Utf8.bytes "50")]) (Utf8.bytes "page") =
      Utf8.bytes "2" := by
  refine (QueryEncoding.extract_iff (by decide) _ _).mpr ⟨fun p hp => .inl ?_, fun hnone => absurd hnone (by decide)⟩
  have hfirst : component.firstRead (Utf8.bytes "page") []
      [(Utf8.bytes "page", Utf8.bytes "2"), (Utf8.bytes "per_page", Utf8.bytes "50")] =
        some (Utf8.bytes "page", Utf8.bytes "2") := by decide
  rw [Option.some.inj (hp.symm.trans hfirst)]

/-- Behind its length it is not: the name of the length ends with its name. -/
theorem extract_per_page : extractQueryParam (component.requestPath (Utf8.bytes "/v1/memories/list")
    [(Utf8.bytes "per_page", Utf8.bytes "50"), (Utf8.bytes "page", Utf8.bytes "2")]) (Utf8.bytes "page") ≠
      QueryEncoding.valueOf (Utf8.bytes "page")
        [(Utf8.bytes "per_page", Utf8.bytes "50"), (Utf8.bytes "page", Utf8.bytes "2")] := by decide

end Server
end Amind
