/-
# The page cache

Pages are kept in a fixed number of slots. A page that is not there takes the
first empty slot, or the slot of a page the clock finds: the hand goes around,
a page that was used since it came by gets a second chance, and one that was
not is written back, if it was changed, and leaves.

A write puts its bytes at the start of the page. What is behind them depends on
whether the page is there: a page in the cache keeps its tail, and for another
one a page of zeros is taken, whatever is stored of it.

The loader and the flusher are those of a store: a page without bytes cannot be
loaded. Copying past the end of a page is outside of it.

Key definitions: `Backed.fetchPage`, `Backed.writePage`, `Backed.findVictim`, `Sound`.
-/
import Amind.Lib.Checked
import Mathlib.Data.List.AList

namespace Amind
namespace Storage

structure PageId where
  fileId : UInt64
  pageNumber : UInt64
  deriving DecidableEq, Repr

structure CachedPage where
  pageId : PageId
  data : List UInt8
  /-- Used since the clock came by. -/
  referenced : Bool
  dirty : Bool
  deriving DecidableEq

structure PageCache where
  capacityPages : ℕ
  pageSize : ℕ
  hasFlusher : Bool
  slots : List (Option CachedPage)
  pageToSlot : AList fun _ : PageId => ℕ
  clockHand : ℕ
  hitCount : ℕ
  missCount : ℕ

def PageCache.new (capacityPages pageSize : ℕ) (hasFlusher : Bool) : PageCache :=
  ⟨capacityPages, pageSize, hasFlusher, List.replicate capacityPages none, ∅, 0, 0, 0⟩

/-- A cache, and the store it loads from and flushes to. -/
structure Backed where
  cache : PageCache
  disk : PageId → List UInt8

namespace Backed

variable (s : Backed)

/-! ### Making room -/

/-- The store with a page that leaves the cache or is flushed. -/
def flushed (page : CachedPage) : PageId → List UInt8 :=
  if page.dirty ∧ s.cache.hasFlusher then Function.update s.disk page.pageId page.data else s.disk

/-- The hand goes on. -/
def advance : Backed := { s with cache.clockHand := (s.cache.clockHand + 1) % s.cache.capacityPages }

/-- A slot without its page. -/
def evictSlot (i : ℕ) (page : CachedPage) : Backed :=
  { s with
    cache.slots := s.cache.slots.set i none
    cache.pageToSlot := s.cache.pageToSlot.erase page.pageId
    disk := s.flushed page }

/-- The slot the hand is at, without its page. -/
def evictAtHand : ℕ × Backed :=
  match s.cache.slots.getD s.cache.clockHand none with
  | some page => (s.cache.clockHand, (s.evictSlot s.cache.clockHand page).advance)
  | none => (s.cache.clockHand, s.advance)

/-- The slot with another page in it. -/
def setSlot (i : ℕ) (page : CachedPage) : Backed := { s with cache.slots := s.cache.slots.set i (some page) }

/-- The clock, with as many slots to come by as `n`. After the last the slot the hand is
at is taken. -/
def sweep : ℕ → Backed → ℕ × Backed
  | 0, s => s.evictAtHand
  | n + 1, s =>
    match s.cache.slots.getD s.cache.clockHand none with
    | some page =>
      if page.referenced = false then s.evictAtHand
      else sweep n (s.setSlot s.cache.clockHand { page with referenced := false }).advance
    | none => sweep n s.advance

def findVictim : ℕ × Backed :=
  match s.cache.slots.findIdx? Option.isNone with
  | some i => (i, s)
  | none => sweep (s.cache.capacityPages * 2) s

/-! ### Pages -/

/-- A page in a slot, and entered for it. -/
def place (i : ℕ) (page : CachedPage) : Backed :=
  { s with
    cache.slots := s.cache.slots.set i (some page)
    cache.pageToSlot := s.cache.pageToSlot.insert page.pageId i }

def loadError (p : PageId) : String :=
  "PageCache: failed to load page (file=" ++ toString p.fileId ++ ", page=" ++ toString p.pageNumber ++ ")"

def hit : Backed := { s with cache.hitCount := s.cache.hitCount + 1 }

def miss : Backed := { s with cache.missCount := s.cache.missCount + 1 }

/-- The bytes of a page, or what is thrown. -/
def fetchPage (p : PageId) : Checked String (Except String (List UInt8) × Backed) :=
  match s.cache.pageToSlot.lookup p with
  | some i =>
    match s.cache.slots.getD i none with
    | some page => .ok (.ok page.data, (s.setSlot i { page with referenced := true }).hit)
    | none => .error .outside
  | none =>
    let data := s.disk p
    if data = [] then .ok (.error (loadError p), s.miss)
    else
      let room := s.miss.findVictim
      .ok (.ok data, room.2.place room.1 ⟨p, data, true, false⟩)

/-- The slot of a page that is written. A page that is not there starts as zeros. -/
def slotToWrite (p : PageId) : ℕ × Backed :=
  match s.cache.pageToSlot.lookup p with
  | some i => (i, s.hit)
  | none =>
    let room := s.miss.findVictim
    (room.1, room.2.place room.1 ⟨p, List.replicate s.cache.pageSize 0, true, false⟩)

def writePage (p : PageId) (data : List UInt8) : Checked String Backed :=
  let slot := s.slotToWrite p
  match slot.2.cache.slots.getD slot.1 none with
  | none => .error (.thrown "bad optional access")
  | some page => do
    let copySize := min data.length s.cache.pageSize
    Checked.within page.data.length 0 copySize
    .ok (slot.2.setSlot slot.1
      { page with data := data.take copySize ++ page.data.drop copySize, referenced := true, dirty := true })

/-- The slot's page, written back. -/
def flushSlot (i : ℕ) (page : CachedPage) : Backed :=
  { s.setSlot i { page with dirty := false } with disk := s.flushed page }

/-- The changed pages in these slots are written back. -/
def flushSlots : List ℕ → Backed → Backed
  | [], s => s
  | i :: is, s =>
    match s.cache.slots.getD i none with
    | some page => flushSlots is (if page.dirty then s.flushSlot i page else s)
    | none => flushSlots is s

def flushAll : Backed := if s.cache.hasFlusher = false then s else flushSlots (List.range s.cache.slots.length) s

def flushPage (p : PageId) : Bool × Backed :=
  if s.cache.hasFlusher = false then (false, s)
  else
    match s.cache.pageToSlot.lookup p with
    | none => (false, s)
    | some i =>
      match s.cache.slots.getD i none with
      | none => (false, s)
      | some page => if page.dirty = false then (false, s) else (true, s.flushSlot i page)

/-- A page leaves the cache. -/
def evictPage (p : PageId) : Backed :=
  match s.cache.pageToSlot.lookup p with
  | none => s
  | some i =>
    match s.cache.slots.getD i none with
    | some page =>
      { s with
        cache.slots := s.cache.slots.set i none
        cache.pageToSlot := s.cache.pageToSlot.erase p
        disk := s.flushed page }
    | none => { s with cache.pageToSlot := s.cache.pageToSlot.erase p }

def evictFile (fileId : UInt64) : Backed :=
  (s.cache.pageToSlot.keys.filter fun p => p.fileId = fileId).foldl evictPage s

end Backed

/-! ### What holds of a cache -/

/-- A page is in a slot. -/
def InSlot (s : Backed) (i : ℕ) (page : CachedPage) : Prop := s.cache.slots[i]? = some (some page)

/-- The map says of every page in a slot where it is, and nothing else. A page that was
not changed is as it is stored. -/
structure Sound (s : Backed) : Prop where
  length : s.cache.slots.length = s.cache.capacityPages
  hand : s.cache.clockHand < s.cache.capacityPages
  flusher : s.cache.hasFlusher = true
  slot : ∀ p i, s.cache.pageToSlot.lookup p = some i → ∃ page, InSlot s i page ∧ page.pageId = p
  mapped : ∀ i page, InSlot s i page → s.cache.pageToSlot.lookup page.pageId = some i
  clean : ∀ i page, InSlot s i page → page.dirty = false → page.data = s.disk page.pageId

/-- The bookkeeping alone: the map and the slots say the same, whatever is stored. -/
structure Booked (s : Backed) : Prop where
  length : s.cache.slots.length = s.cache.capacityPages
  hand : s.cache.clockHand < s.cache.capacityPages
  slot : ∀ p i, s.cache.pageToSlot.lookup p = some i → ∃ page, InSlot s i page ∧ page.pageId = p
  mapped : ∀ i page, InSlot s i page → s.cache.pageToSlot.lookup page.pageId = some i

/-- The page in the cache. -/
def pageAt (s : Backed) (p : PageId) : Option CachedPage :=
  (s.cache.pageToSlot.lookup p).bind fun i => s.cache.slots.getD i none

/-- The bytes of a page: those in the cache, else those stored. -/
def content (s : Backed) (p : PageId) : List UInt8 :=
  match pageAt s p with
  | some page => page.data
  | none => s.disk p

section Frame

variable {s s' : Backed} {i : ℕ} {page : CachedPage} {p q : PageId}

theorem content_of_some (h : pageAt s p = some page) : content s p = page.data := by
  unfold content
  rw [h]

theorem content_of_none (h : pageAt s p = none) : content s p = s.disk p := by
  unfold content
  rw [h]

theorem InSlot.getD (h : InSlot s i page) : s.cache.slots.getD i none = some page := by
  rw [List.getD_eq_getElem?_getD, h]
  rfl

theorem InSlot.lt (h : InSlot s i page) : i < s.cache.slots.length := (List.getElem?_eq_some_iff.mp h).1

theorem InSlot.ne_empty {j : ℕ} (h : InSlot s i page) (hj : s.cache.slots[j]? = some none) : i ≠ j := by
  rintro rfl
  rw [InSlot, hj] at h
  cases h

theorem InSlot.unique {page' : CachedPage} (h : InSlot s i page) (h' : InSlot s i page') : page' = page :=
  Option.some.inj (Option.some.inj (h'.symm.trans h))

theorem Sound.booked (hs : Sound s) : Booked s := ⟨hs.length, hs.hand, hs.slot, hs.mapped⟩

theorem Sound.pageAt_eq (hs : Sound s) (h : InSlot s i page) : pageAt s page.pageId = some page := by
  unfold pageAt
  rw [hs.mapped i page h, Option.bind_some, h.getD]

theorem Sound.of_lookup (hs : Sound s) (h : s.cache.pageToSlot.lookup p = some i) :
    ∃ page, InSlot s i page ∧ page.pageId = p ∧ pageAt s p = some page := by
  obtain ⟨page, hi, rfl⟩ := hs.slot p i h
  exact ⟨page, hi, rfl, hs.pageAt_eq hi⟩

theorem pageAt_of_lookup_none (h : s.cache.pageToSlot.lookup p = none) : pageAt s p = none := by
  unfold pageAt
  rw [h]
  rfl

theorem Sound.lookup_none (hs : Sound s) (h : pageAt s p = none) : s.cache.pageToSlot.lookup p = none := by
  cases hl : s.cache.pageToSlot.lookup p with
  | none => rfl
  | some i =>
    obtain ⟨page, -, -, hp⟩ := hs.of_lookup hl
    rw [hp] at h
    cases h

/-! ### What changes -/

/-- Of all pages only `p` changes in the cache, and no other is stored anew. -/
structure Becomes (s s' : Backed) (p : PageId) (o : Option CachedPage) : Prop where
  sound : Sound s'
  here : pageAt s' p = o
  off : ∀ q ≠ p, pageAt s' q = pageAt s q
  disk : ∀ q ≠ p, s'.disk q = s.disk q
  capacity : s'.cache.capacityPages = s.cache.capacityPages
  pageSize : s'.cache.pageSize = s.cache.pageSize

theorem Becomes.ne_of_none (h : Becomes s s' p (some page)) (hq : pageAt s' q = none) : q ≠ p := by
  rintro rfl
  rw [h.here] at hq
  cases hq

theorem Becomes.content {o : Option CachedPage} (h : Becomes s s' p o) (hq : q ≠ p) : content s' q = content s q := by
  unfold Storage.content
  rw [h.off q hq, h.disk q hq]

/-- A slot and a page belong together: the page is in no other slot, and no other page in
the slot. -/
def Together (s : Backed) (i : ℕ) (p : PageId) : Prop :=
  i < s.cache.slots.length ∧ ∀ j page, InSlot s j page → (page.pageId = p ↔ i = j)

theorem Booked.together (hs : Booked s) (hi : InSlot s i page) : Together s i page.pageId := by
  refine ⟨hi.lt, fun j other hj => ⟨fun heq => ?_, fun heq => ?_⟩⟩
  · have hmap := hs.mapped j other hj
    rw [heq, hs.mapped i page hi] at hmap
    exact Option.some.inj hmap
  · subst heq
    rw [hi.unique hj]

theorem Booked.together_of_empty (hs : Booked s) (hi : s.cache.slots[i]? = some none)
    (hp : s.cache.pageToSlot.lookup p = none) : Together s i p := by
  refine ⟨(List.getElem?_eq_some_iff.mp hi).1, fun j other hj => iff_of_false (fun heq => ?_) fun heq => ?_⟩
  · have hmap := hs.mapped j other hj
    rw [heq, hp] at hmap
    cases hmap
  · exact hj.ne_empty hi heq.symm

/-- After a slot is set it holds what it is set to, and every other what it held: a page
with another name. -/
theorem Together.inSlot_set (hi : Together s i p) {o : Option CachedPage} {j : ℕ} {other : CachedPage}
    (h : (s.cache.slots.set i o)[j]? = some (some other)) :
    (i = j ∧ o = some other) ∨ (InSlot s j other ∧ other.pageId ≠ p) := by
  by_cases hj : i = j
  · subst hj
    rw [List.getElem?_set_self hi.1] at h
    exact .inl ⟨rfl, Option.some.inj h⟩
  · rw [List.getElem?_set_ne hj] at h
    exact .inr ⟨h, fun heq => hj ((hi.2 j other h).mp heq)⟩

/-- Another page is in another slot. -/
theorem Booked.ne_of_lookup (hs : Booked s) (hi : Together s i p) {q : PageId} {j : ℕ} (hq : q ≠ p)
    (hl : s.cache.pageToSlot.lookup q = some j) : i ≠ j := by
  rintro rfl
  obtain ⟨other, hj, rfl⟩ := hs.slot q i hl
  exact hq ((hi.2 i other hj).mpr rfl)

/-- What a slot holds changes, and with it what its page's name is mapped to. -/
theorem Booked.set (hs : Booked s) (hi : Together s i p) {o : Option CachedPage} {map : AList fun _ : PageId => ℕ}
    {disk : PageId → List UInt8} (hid : ∀ page, o = some page → page.pageId = p)
    (hoff : ∀ q ≠ p, map.lookup q = s.cache.pageToSlot.lookup q) (hat : map.lookup p = o.map fun _ => i) :
    Booked ⟨{ s.cache with slots := s.cache.slots.set i o, pageToSlot := map }, disk⟩ := by
  refine ⟨List.length_set.trans hs.length, hs.hand, fun q j hl => ?_, fun j other h => ?_⟩
  · by_cases hq : q = p
    · subst hq
      cases o with
      | none => cases hat.symm.trans hl
      | some page =>
        obtain rfl := Option.some.inj (hat.symm.trans hl)
        exact ⟨page, List.getElem?_set_self hi.1, hid page rfl⟩
    · have hl' := (hoff q hq).symm.trans hl
      obtain ⟨other, hj, rfl⟩ := hs.slot q j hl'
      exact ⟨other, (List.getElem?_set_ne (hs.ne_of_lookup hi hq hl')).trans hj, rfl⟩
  · rcases hi.inSlot_set h with ⟨rfl, rfl⟩ | ⟨h, hne⟩
    · rw [hid other rfl]
      exact hat
    · exact (hoff _ hne).trans (hs.mapped j other h)

/-- So does a sound cache, if a page that was not changed is as it is stored. -/
theorem Sound.becomes (hs : Sound s) (hi : Together s i p) {o : Option CachedPage} {map : AList fun _ : PageId => ℕ}
    {disk : PageId → List UInt8} (hid : ∀ page, o = some page → page.pageId = p)
    (hoff : ∀ q ≠ p, map.lookup q = s.cache.pageToSlot.lookup q) (hat : map.lookup p = o.map fun _ => i)
    (hdisk : ∀ q ≠ p, disk q = s.disk q) (hclean : ∀ page, o = some page → page.dirty = false → page.data = disk p) :
    Becomes s ⟨{ s.cache with slots := s.cache.slots.set i o, pageToSlot := map }, disk⟩ p o := by
  have hbooked : Booked ⟨{ s.cache with slots := s.cache.slots.set i o, pageToSlot := map }, disk⟩ :=
    hs.booked.set hi hid hoff hat
  refine ⟨⟨hbooked.length, hbooked.hand, hs.flusher, hbooked.slot, hbooked.mapped, fun j other h hd => ?_⟩, ?_,
    fun q hq => ?_, hdisk, rfl, rfl⟩
  · rcases hi.inSlot_set h with ⟨rfl, rfl⟩ | ⟨h, hne⟩
    · rw [hid other rfl]
      exact hclean other rfl hd
    · exact (hs.clean j other h hd).trans (hdisk _ hne).symm
  · show (map.lookup p).bind (fun j => (s.cache.slots.set i o).getD j none) = o
    rw [hat]
    cases o with
    | none => rfl
    | some page =>
      show (s.cache.slots.set i (some page)).getD i none = some page
      rw [List.getD_eq_getElem?_getD, List.getElem?_set_self hi.1]
      rfl
  · show (map.lookup q).bind _ = (s.cache.pageToSlot.lookup q).bind _
    rw [hoff q hq]
    cases hl : s.cache.pageToSlot.lookup q with
    | none => rfl
    | some j =>
      show (s.cache.slots.set i o).getD j none = s.cache.slots.getD j none
      rw [List.getD_eq_getElem?_getD, List.getD_eq_getElem?_getD,
        List.getElem?_set_ne (hs.booked.ne_of_lookup hi hq hl)]

/-- Another page with the same name in the slot. -/
theorem Sound.becomes_set (hs : Sound s) (page' : CachedPage) (hi : InSlot s i page) (hid : page'.pageId = page.pageId)
    {disk : PageId → List UInt8} (hdisk : ∀ q ≠ page.pageId, disk q = s.disk q)
    (hclean : page'.dirty = false → page'.data = disk page.pageId) :
    Becomes s { s.setSlot i page' with disk := disk } page.pageId (some page') := by
  refine hs.becomes (hs.booked.together hi) (fun other h => ?_) (fun _ _ => rfl) (hs.mapped i page hi) hdisk fun other h => ?_
  · exact Option.some.inj h ▸ hid
  · exact Option.some.inj h ▸ hclean

/-- The slot without its page. -/
theorem Sound.becomes_drop (hs : Sound s) (hi : InSlot s i page) {disk : PageId → List UInt8}
    (hdisk : ∀ q ≠ page.pageId, disk q = s.disk q) :
    Becomes s ⟨{ s.cache with
      slots := s.cache.slots.set i none, pageToSlot := s.cache.pageToSlot.erase page.pageId }, disk⟩ page.pageId none :=
  hs.becomes (hs.booked.together hi) (fun _ h => by cases h) (fun _ hq => AList.lookup_erase_ne hq) (AList.lookup_erase _ _)
    hdisk fun _ h => by cases h

/-- A page in an empty slot. -/
theorem Sound.becomes_place (hs : Sound s) (hi : s.cache.slots[i]? = some none) (hnew : pageAt s page.pageId = none)
    (hclean : page.dirty = false → page.data = s.disk page.pageId) :
    Becomes s (s.place i page) page.pageId (some page) := by
  refine hs.becomes (hs.booked.together_of_empty hi (hs.lookup_none hnew)) (fun other h => ?_) (fun _ hq =>
    AList.lookup_insert_ne hq)
    (AList.lookup_insert _) (fun _ _ => rfl) fun other h => ?_
  · exact Option.some.inj h ▸ rfl
  · exact Option.some.inj h ▸ hclean

end Frame

/-! ### What does not show -/

/-- No page has other bytes. Pages may leave the cache, but those of `stay` do not. -/
structure Keeps (stay : PageId → Prop) (s s' : Backed) : Prop where
  sound : Sound s'
  content : ∀ q, content s' q = content s q
  gone : ∀ q, pageAt s q = none → pageAt s' q = none
  stays : ∀ q, stay q → pageAt s' q = none → pageAt s q = none
  vacant : ∀ i : ℕ, s.cache.slots[i]? = some none → s'.cache.slots[i]? = some none
  capacity : s'.cache.capacityPages = s.cache.capacityPages
  pageSize : s'.cache.pageSize = s.cache.pageSize

section Keeping

variable {stay : PageId → Prop} {s s' s'' : Backed} {i : ℕ} {page : CachedPage} {p : PageId}

theorem Keeps.refl (hs : Sound s) : Keeps stay s s :=
  ⟨hs, fun _ => rfl, fun _ => id, fun _ _ => id, fun _ => id, rfl, rfl⟩

theorem Keeps.trans (h : Keeps stay s s') (h' : Keeps stay s' s'') : Keeps stay s s'' where
  sound := h'.sound
  content q := (h'.content q).trans (h.content q)
  gone q hq := h'.gone q (h.gone q hq)
  stays q hq hnone := h.stays q hq (h'.stays q hq hnone)
  vacant i hi := h'.vacant i (h.vacant i hi)
  capacity := h'.capacity.trans h.capacity
  pageSize := h'.pageSize.trans h.pageSize

/-- The hand and the counts are of no matter. -/
theorem Sound.keeps_counts (hs : Sound s) {hand hits misses : ℕ} (hhand : hand < s.cache.capacityPages) :
    Keeps stay s { s with cache.clockHand := hand, cache.hitCount := hits, cache.missCount := misses } :=
  ⟨⟨hs.length, hhand, hs.flusher, hs.slot, hs.mapped, hs.clean⟩, fun _ => rfl, fun _ => id, fun _ _ => id, fun _ => id,
    rfl, rfl⟩

theorem Sound.advance (hs : Sound s) : Keeps stay s s.advance :=
  hs.keeps_counts (Nat.mod_lt _ (Nat.zero_lt_of_lt hs.hand))

/-- A page keeps its bytes, and is stored as it was or as it is. -/
theorem Sound.keeps_set (hs : Sound s) (page' : CachedPage) (hi : InSlot s i page) (hid : page'.pageId = page.pageId)
    (hdata : page'.data = page.data) {disk : PageId → List UInt8} (hdisk : ∀ q ≠ page.pageId, disk q = s.disk q)
    (hclean : page'.dirty = false → page.data = disk page.pageId) :
    Keeps stay s { s.setSlot i page' with disk := disk } := by
  have hset := hs.becomes_set page' hi hid hdisk (hdata.symm ▸ hclean)
  refine ⟨hset.sound, fun q => ?_, fun q hq => ?_, fun q _ hq => ?_, fun j hj => ?_, rfl, rfl⟩
  · by_cases hq : q = page.pageId
    · rw [hq, content_of_some hset.here, content_of_some (hs.pageAt_eq hi), hdata]
    · exact hset.content hq
  · by_cases hp : q = page.pageId
    · rw [hp, hs.pageAt_eq hi] at hq
      cases hq
    · rw [hset.off q hp, hq]
  · by_cases hp : q = page.pageId
    · rw [hp, hset.here] at hq
      cases hq
    · rwa [hset.off q hp] at hq
  · exact (List.getElem?_set_ne (hi.ne_empty hj)).trans hj

theorem flushed_off (hq : p ≠ page.pageId) : s.flushed page p = s.disk p := by
  unfold Backed.flushed
  split
  · exact Function.update_of_ne hq _ _
  · rfl

/-- A page that has been flushed is stored as it is. -/
theorem Sound.flushed_self (hs : Sound s) (hi : InSlot s i page) : s.flushed page page.pageId = page.data := by
  unfold Backed.flushed
  by_cases hd : page.dirty = true
  · rw [if_pos ⟨hd, hs.flusher⟩, Function.update_self]
  · rw [if_neg fun h => hd h.1]
    exact (hs.clean i page hi (Bool.eq_false_iff.mpr hd)).symm

theorem Sound.flushSlot (hs : Sound s) (hi : InSlot s i page) : Keeps stay s (s.flushSlot i page) :=
  hs.keeps_set { page with dirty := false } hi rfl rfl (fun _ hq => flushed_off hq) fun _ =>
    (hs.flushed_self hi).symm

/-- A page that is written back leaves the cache. -/
theorem Sound.evictSlot (hs : Sound s) (hi : InSlot s i page) (hstay : ¬ stay page.pageId) :
    Keeps stay s (s.evictSlot i page) ∧ pageAt (s.evictSlot i page) page.pageId = none ∧
      (s.evictSlot i page).cache.slots[i]? = some none := by
  have hdrop := hs.becomes_drop hi fun _ hq => flushed_off hq
  refine ⟨⟨hdrop.sound, fun q => ?_, fun q hq => ?_, fun q hq hnone => ?_, fun j hj => ?_, rfl, rfl⟩, hdrop.here,
    List.getElem?_set_self hi.lt⟩
  · by_cases hq : q = page.pageId
    · rw [hq, content_of_some (hs.pageAt_eq hi)]
      exact (content_of_none hdrop.here).trans (hs.flushed_self hi)
    · exact hdrop.content hq
  · by_cases hp : q = page.pageId
    · rw [hp]
      exact hdrop.here
    · exact (hdrop.off q hp).trans hq
  · have hp : q ≠ page.pageId := fun heq => hstay (heq ▸ hq)
    exact (hdrop.off q hp).symm.trans hnone
  · show (s.cache.slots.set i none)[j]? = some none
    by_cases heq : i = j
    · subst heq
      exact List.getElem?_set_self hi.lt
    · exact (List.getElem?_set_ne heq).trans hj

/-! ### Room for a page -/

/-- An empty slot, for which pages may have left. -/
def Room (s : Backed) (r : ℕ × Backed) : Prop := Keeps (fun _ => False) s r.2 ∧ r.2.cache.slots[r.1]? = some none

theorem Booked.slot_or (hs : Booked s) (hi : i < s.cache.capacityPages) :
    (∃ page, s.cache.slots.getD i none = some page ∧ InSlot s i page) ∨
      (s.cache.slots.getD i none = none ∧ s.cache.slots[i]? = some none) := by
  have hlt : i < s.cache.slots.length := hs.length.symm ▸ hi
  unfold InSlot
  rw [List.getD_eq_getElem?_getD, List.getElem?_eq_getElem hlt]
  cases s.cache.slots[i] with
  | some page => exact .inl ⟨page, rfl, rfl⟩
  | none => exact .inr ⟨rfl, rfl⟩

theorem Sound.evictAtHand (hs : Sound s) : Room s s.evictAtHand := by
  unfold Room Backed.evictAtHand
  rcases hs.booked.slot_or hs.hand with ⟨page, hget, hi⟩ | ⟨hget, hi⟩
  · rw [hget]
    obtain ⟨hkeeps, -, hempty⟩ : Keeps (fun _ => False) s (s.evictSlot s.cache.clockHand page) ∧ _ ∧ _ :=
      hs.evictSlot hi id
    exact ⟨hkeeps.trans hkeeps.sound.advance, hempty⟩
  · rw [hget]
    exact ⟨hs.advance, hi⟩

theorem Sound.sweep : ∀ (n : ℕ) {s : Backed}, Sound s → Room s (Backed.sweep n s)
  | 0, _, hs => hs.evictAtHand
  | n + 1, s, hs => by
    unfold Backed.sweep
    rcases hs.booked.slot_or hs.hand with ⟨page, hget, hi⟩ | ⟨hget, hi⟩
    · rw [hget]
      dsimp only
      by_cases href : page.referenced = false
      · rw [if_pos href]
        exact hs.evictAtHand
      · rw [if_neg href]
        have hset : Keeps (fun _ => False) s (s.setSlot s.cache.clockHand { page with referenced := false }) :=
          hs.keeps_set { page with referenced := false } hi rfl rfl (fun _ _ => rfl) fun hd =>
            hs.clean _ page hi hd
        have hstep := hset.trans hset.sound.advance
        obtain ⟨hkeeps, hempty⟩ := Sound.sweep n hstep.sound
        exact ⟨hstep.trans hkeeps, hempty⟩
    · rw [hget]
      have hadvance : Keeps (fun _ => False) s s.advance := hs.advance
      obtain ⟨hkeeps, hempty⟩ := Sound.sweep n hadvance.sound
      exact ⟨hadvance.trans hkeeps, hempty⟩

theorem findIdx?_isNone {α : Type} {l : List (Option α)} {i : ℕ} (h : l.findIdx? Option.isNone = some i) :
    l[i]? = some none := by
  obtain ⟨hi, hnone, -⟩ := List.findIdx?_eq_some_iff_getElem.mp h
  rw [List.getElem?_eq_getElem hi, Option.isNone_iff_eq_none.mp hnone]

theorem Sound.findVictim (hs : Sound s) : Room s s.findVictim := by
  unfold Backed.findVictim
  cases hfind : s.cache.slots.findIdx? Option.isNone with
  | some i => exact ⟨.refl hs, findIdx?_isNone hfind⟩
  | none => exact hs.sweep _

/-- While a slot is empty, none has to leave, and none behind it is taken. -/
theorem findVictim_of_empty {n : ℕ} (h : s.cache.slots[n]? = some none) : ∃ i ≤ n, s.findVictim = (i, s) := by
  unfold Backed.findVictim
  cases hfind : s.cache.slots.findIdx? Option.isNone with
  | some i =>
    refine ⟨i, ?_, rfl⟩
    obtain ⟨hi, hnone, hbefore⟩ := List.findIdx?_eq_some_iff_getElem.mp hfind
    by_contra hlt
    have hn := hbefore n (Nat.not_le.mp hlt)
    obtain ⟨_, hget⟩ := List.getElem?_eq_some_iff.mp h
    rw [hget] at hn
    exact hn rfl
  | none =>
    have hall := List.findIdx?_eq_none_iff.mp hfind none (List.mem_of_getElem? h)
    cases hall

/-- Room for a page that is not there, and the page in it. -/
theorem placed (page : CachedPage) (hp : pageAt s page.pageId = none)
    (hclean : page.dirty = false → page.data = s.disk page.pageId) {r : ℕ × Backed} (hr : Room s r) :
    Becomes r.2 (r.2.place r.1 page) page.pageId (some page) := by
  obtain ⟨hkeeps, hempty⟩ := hr
  have hnone := hkeeps.gone _ hp
  refine hkeeps.sound.becomes_place hempty hnone fun hd => ?_
  have hcontent := hkeeps.content page.pageId
  rw [content_of_none hp, content_of_none hnone] at hcontent
  rw [hcontent]
  exact hclean hd

end Keeping

/-! ### The operations -/

section Operations

variable {stay : PageId → Prop} {s : Backed} {i : ℕ} {page : CachedPage} {p : PageId}

theorem Sound.counts (hs : Sound s) (hits misses : ℕ) :
    Keeps stay s { s with cache.hitCount := hits, cache.missCount := misses } :=
  hs.keeps_counts hs.hand

theorem Sound.miss (hs : Sound s) : Keeps (fun _ => True) s s.miss := hs.counts _ _

theorem Sound.fetchPage_hit (hs : Sound s) (h : pageAt s p = some page) :
    ∃ s', s.fetchPage p = .ok (.ok page.data, s') ∧ Keeps stay s s' := by
  cases hl : s.cache.pageToSlot.lookup p with
  | none =>
    rw [pageAt_of_lookup_none hl] at h
    cases h
  | some i =>
    obtain ⟨other, hi, -, hother⟩ := hs.of_lookup hl
    obtain rfl := Option.some.inj (h.symm.trans hother)
    have hset : Keeps stay s (s.setSlot i { page with referenced := true }) :=
      hs.keeps_set { page with referenced := true } hi rfl rfl (fun _ _ => rfl) fun hd => hs.clean i page hi hd
    refine ⟨(s.setSlot i { page with referenced := true }).hit, ?_, hset.trans (hset.sound.counts _ _)⟩
    unfold Backed.fetchPage
    rw [hl]
    dsimp only
    rw [hi.getD]

theorem Sound.fetchPage_none (hs : Sound s) (h : pageAt s p = none) (hdisk : s.disk p = []) :
    s.fetchPage p = .ok (.error (Backed.loadError p), s.miss) ∧ Keeps stay s s.miss := by
  refine ⟨?_, hs.counts _ _⟩
  unfold Backed.fetchPage
  rw [hs.lookup_none h]
  dsimp only
  rw [if_pos hdisk]

theorem Sound.fetchPage_miss (hs : Sound s) (h : pageAt s p = none) (hdisk : s.disk p ≠ []) :
    s.fetchPage p = .ok (.ok (s.disk p), s.miss.findVictim.2.place s.miss.findVictim.1 ⟨p, s.disk p, true, false⟩) := by
  unfold Backed.fetchPage
  rw [hs.lookup_none h]
  dsimp only
  rw [if_neg hdisk]

/-- The bytes at the start of a page. -/
def overwrite (data d : List UInt8) : List UInt8 := d ++ data.drop d.length

theorem copied_eq (d data : List UInt8) (n : ℕ) :
    d.take (min d.length n) ++ data.drop (min d.length n) = overwrite data (d.take n) := by
  unfold overwrite
  rw [List.length_take, Nat.min_comm d.length n]
  congr 1
  rw [List.take_eq_take_iff, Nat.min_assoc, Nat.min_self]

/-- A page that is there gets the bytes at its start, if it has as many. -/
theorem Sound.writePage_hit (hs : Sound s) (h : pageAt s p = some page) (d : List UInt8) :
    ∃ s', s.writePage p d = (Checked.within page.data.length 0 (d.take s.cache.pageSize).length >>= fun _ => .ok s') ∧
      Becomes s s' p (some ⟨p, overwrite page.data (d.take s.cache.pageSize), true, true⟩) ∧
      ∀ j : ℕ, s.cache.slots[j]? = some none → s'.cache.slots[j]? = some none := by
  cases hl : s.cache.pageToSlot.lookup p with
  | none =>
    rw [pageAt_of_lookup_none hl] at h
    cases h
  | some i =>
    obtain ⟨other, hi, hid, hother⟩ := hs.of_lookup hl
    obtain rfl := Option.some.inj (h.symm.trans hother)
    have hset := hs.becomes_set ⟨p, overwrite page.data (d.take s.cache.pageSize), true, true⟩ hi hid.symm
      (fun _ _ => rfl) fun hd => by cases hd
    rw [hid] at hset
    have hcounts : Keeps (fun _ => True) _ _ := hset.sound.counts (s.cache.hitCount + 1) s.cache.missCount
    refine ⟨s.hit.setSlot i ⟨p, overwrite page.data (d.take s.cache.pageSize), true, true⟩, ?_,
      ⟨hcounts.sound, hset.here, hset.off, hset.disk, rfl, rfl⟩, fun j hj => ?_⟩
    · unfold Backed.writePage Backed.slotToWrite
      rw [hl]
      dsimp only
      rw [show s.hit.cache.slots.getD i none = some page from hi.getD]
      dsimp only
      rw [copied_eq, List.length_take, Nat.min_comm, ← hid]
    · exact (List.getElem?_set_ne (hi.ne_empty hj)).trans hj

/-- Another page gets them before zeros. -/
theorem Sound.writePage_miss (hs : Sound s) (h : pageAt s p = none) (d : List UInt8) :
    s.writePage p d = .ok (s.miss.findVictim.2.place s.miss.findVictim.1
      ⟨p, overwrite (List.replicate s.cache.pageSize 0) (d.take s.cache.pageSize), true, true⟩) := by
  have hempty : s.miss.findVictim.2.cache.slots[s.miss.findVictim.1]? = some none :=
    hs.miss.sound.findVictim.2
  have hlt := (List.getElem?_eq_some_iff.mp hempty).1
  unfold Backed.writePage Backed.slotToWrite
  rw [hs.lookup_none h]
  dsimp only
  generalize s.miss.findVictim = r at *
  have hget : (r.2.place r.1 ⟨p, List.replicate s.cache.pageSize 0, true, false⟩).cache.slots.getD r.1 none =
      some ⟨p, List.replicate s.cache.pageSize 0, true, false⟩ := by
    rw [List.getD_eq_getElem?_getD]
    exact congrArg (Option.getD · none) (List.getElem?_set_self hlt)
  rw [hget]
  dsimp only
  rw [Checked.within_of_le (by rw [List.length_replicate]; omega), Checked.ok_bind, copied_eq]
  unfold Backed.setSlot Backed.place
  dsimp only
  rw [List.set_set]

theorem Sound.flushSlots : ∀ (is : List ℕ) {s : Backed}, Sound s → (∀ i ∈ is, i < s.cache.slots.length) →
    Keeps stay s (Backed.flushSlots is s)
  | [], _, hs, _ => .refl hs
  | i :: is, s, hs, his => by
    obtain ⟨hi, his⟩ := List.forall_mem_cons.mp his
    unfold Backed.flushSlots
    rcases hs.booked.slot_or (hs.length ▸ hi) with ⟨page, hget, hin⟩ | ⟨hget, -⟩
    · rw [hget]
      dsimp only
      by_cases hd : page.dirty = true
      · have hflush : Keeps stay s (s.flushSlot i page) := hs.flushSlot hin
        rw [if_pos hd]
        refine hflush.trans (Sound.flushSlots is hflush.sound fun j hj => ?_)
        rw [hflush.sound.length, hflush.capacity, ← hs.length]
        exact his j hj
      · rw [if_neg hd]
        exact Sound.flushSlots is hs his
    · rw [hget]
      exact Sound.flushSlots is hs his

theorem Sound.flushAll (hs : Sound s) : Keeps stay s s.flushAll := by
  unfold Backed.flushAll
  split
  · exact .refl hs
  · exact Sound.flushSlots _ hs fun i hi => List.mem_range.mp hi

theorem Sound.flushPage (hs : Sound s) (p : PageId) : Keeps stay s (s.flushPage p).2 := by
  unfold Backed.flushPage
  split
  · exact .refl hs
  · cases hl : s.cache.pageToSlot.lookup p with
    | none => exact .refl hs
    | some i =>
      obtain ⟨page, hi, -, -⟩ := hs.of_lookup hl
      dsimp only
      rw [hi.getD]
      dsimp only
      split
      · exact .refl hs
      · exact hs.flushSlot hi

theorem Sound.evictPage (hs : Sound s) (hp : ¬ stay p) :
    Keeps stay s (s.evictPage p) ∧ pageAt (s.evictPage p) p = none := by
  unfold Backed.evictPage
  cases hl : s.cache.pageToSlot.lookup p with
  | none => exact ⟨.refl hs, pageAt_of_lookup_none hl⟩
  | some i =>
    obtain ⟨page, hi, rfl, -⟩ := hs.of_lookup hl
    obtain ⟨hkeeps, hgone, -⟩ := hs.evictSlot hi hp
    dsimp only
    rw [hi.getD]
    exact ⟨hkeeps, hgone⟩

theorem Sound.evictPages : ∀ (ps : List PageId) {s : Backed}, Sound s → (∀ p ∈ ps, ¬ stay p) →
    Keeps stay s (ps.foldl Backed.evictPage s) ∧ ∀ p ∈ ps, pageAt (ps.foldl Backed.evictPage s) p = none
  | [], _, hs, _ => ⟨.refl hs, fun _ h => absurd h List.not_mem_nil⟩
  | p :: ps, s, hs, hps => by
    obtain ⟨hp, hps⟩ := List.forall_mem_cons.mp hps
    obtain ⟨hkeeps, hgone⟩ := hs.evictPage hp
    obtain ⟨hrest, hall⟩ := Sound.evictPages ps hkeeps.sound hps
    refine ⟨hkeeps.trans hrest, List.forall_mem_cons.mpr ⟨hrest.gone p hgone, hall⟩⟩

/-- The pages of a file leave the cache, and no others. -/
theorem Sound.evictFile (hs : Sound s) (fileId : UInt64) : Keeps (fun p => p.fileId ≠ fileId) s (s.evictFile fileId) ∧
    ∀ p : PageId, p.fileId = fileId → pageAt (s.evictFile fileId) p = none := by
  have hps : ∀ p ∈ s.cache.pageToSlot.keys.filter fun p => p.fileId = fileId, ¬ p.fileId ≠ fileId := by
    intro p hp
    exact not_not.mpr (of_decide_eq_true (List.mem_filter.mp hp).2)
  obtain ⟨hkeeps, hall⟩ := Sound.evictPages _ hs hps
  refine ⟨hkeeps, fun p hp => ?_⟩
  by_cases hmem : p ∈ s.cache.pageToSlot.keys
  · exact hall p (List.mem_filter.mpr ⟨hmem, decide_eq_true hp⟩)
  · exact hkeeps.gone p (pageAt_of_lookup_none (AList.lookup_eq_none.mpr hmem))

end Operations

end Storage
end Amind
