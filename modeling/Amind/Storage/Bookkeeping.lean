/-
# The bookkeeping of the page cache

Whatever the loader answers and whether there is a flusher or not: the map and
the occupied slots say the same (`Booked`), and a page that was changed and is
not there any more after an operation was flushed with its bytes (`Parted`).

Where all slots are full the hand clears the marks it comes by, so when it is
back where it started it stands at a page without one: the loop of `findVictim`
ends within one turn and a step, and what is written behind it for the case that
it does not is never reached (`FoundAt.sweepOr_eq`).

A run stops where a write goes past the end of a page that was loaded short,
and nowhere else (`Booked.step`).

Key definitions: `Booked`, `Parted`, `tick`, `reached`.
-/
import Mathlib.Data.List.Perm.Subperm
import Mathlib.Data.Nat.Find
import Amind.Storage.Transparency

namespace Amind
namespace Storage

/-- What a step of the cache does to the pages and the store. -/
structure Parted (s s' : Backed) : Prop where
  booked : Booked s'
  capacity : s'.cache.capacityPages = s.cache.capacityPages
  hasFlusher : s'.cache.hasFlusher = s.cache.hasFlusher
  /-- What was not there still is not, and is stored as it was. -/
  absent : ∀ p, s.cache.pageToSlot.lookup p = none → s'.cache.pageToSlot.lookup p = none ∧ s'.disk p = s.disk p
  /-- A page that was changed still is there, or was flushed with its bytes. -/
  changed : ∀ i page, InSlot s i page → page.dirty = true →
    (∃ page', InSlot s' i page' ∧ page'.pageId = page.pageId ∧ page'.data = page.data ∧ page'.dirty = true) ∨
      s'.cache.pageToSlot.lookup page.pageId = none ∧
        (s.cache.hasFlusher = true → s'.disk page.pageId = page.data)

section Parting

variable {s s' s'' : Backed} {i : ℕ} {page : CachedPage} {p : PageId}

theorem Parted.refl (hs : Booked s) : Parted s s :=
  ⟨hs, rfl, rfl, fun _ h => ⟨h, rfl⟩, fun _ page hi hd => .inl ⟨page, hi, rfl, rfl, hd⟩⟩

theorem Parted.trans (h : Parted s s') (h' : Parted s' s'') : Parted s s'' where
  booked := h'.booked
  capacity := h'.capacity.trans h.capacity
  hasFlusher := h'.hasFlusher.trans h.hasFlusher
  absent p hp := by
    obtain ⟨hp', hdisk⟩ := h.absent p hp
    obtain ⟨hp'', hdisk'⟩ := h'.absent p hp'
    exact ⟨hp'', hdisk'.trans hdisk⟩
  changed i page hi hd := by
    obtain ⟨page', hi', hid, hdata, hd'⟩ | ⟨hgone, hflush⟩ := h.changed i page hi hd
    · obtain ⟨page'', hi'', hid', hdata', hd''⟩ | ⟨hgone, hflush⟩ := h'.changed i page' hi' hd'
      · exact .inl ⟨page'', hi'', hid'.trans hid, hdata'.trans hdata, hd''⟩
      · rw [hid, hdata, h.hasFlusher] at *
        exact .inr ⟨hgone, hflush⟩
    · obtain ⟨hgone', hdisk⟩ := h'.absent _ hgone
      exact .inr ⟨hgone', fun hf => hdisk.trans (hflush hf)⟩

/-- The hand and the counts are of no matter. -/
theorem Booked.counts (hs : Booked s) {hand hits misses : ℕ} (hhand : hand < s.cache.capacityPages) :
    Parted s { s with cache.clockHand := hand, cache.hitCount := hits, cache.missCount := misses } :=
  ⟨⟨hs.length, hhand, hs.slot, hs.mapped⟩, rfl, rfl, fun _ h => ⟨h, rfl⟩,
    fun _ page hi hd => .inl ⟨page, hi, rfl, rfl, hd⟩⟩

theorem Booked.advance (hs : Booked s) : Parted s s.advance :=
  hs.counts (Nat.mod_lt _ (Nat.zero_lt_of_lt hs.hand))

/-- Another page with the same name in the slot. -/
theorem Booked.setSlot (hs : Booked s) (hi : InSlot s i page) (page' : CachedPage)
    (hid : page'.pageId = page.pageId) (disk : PageId → List UInt8) :
    Booked { s.setSlot i page' with disk := disk } :=
  hs.set (hs.together hi) (fun _ h => Option.some.inj h ▸ hid) (fun _ _ => rfl) (hs.mapped i page hi)

/-- The mark of a page is of no matter either. -/
theorem Booked.mark (hs : Booked s) (hi : InSlot s i page) (mark : Bool) :
    Parted s (s.setSlot i { page with referenced := mark }) := by
  have hbooked : Booked (s.setSlot i { page with referenced := mark }) :=
    hs.setSlot hi { page with referenced := mark } rfl s.disk
  refine ⟨hbooked, rfl, rfl, fun _ h => ⟨h, rfl⟩, fun j other hj hd => .inl ?_⟩
  by_cases hij : i = j
  · subst hij
    obtain rfl := hi.unique hj
    exact ⟨_, List.getElem?_set_self hi.lt, rfl, rfl, hd⟩
  · exact ⟨other, (List.getElem?_set_ne hij).trans hj, rfl, rfl, hd⟩

/-- A page leaves its slot. -/
theorem Booked.evictSlot (hs : Booked s) (hi : InSlot s i page) :
    Parted s (s.evictSlot i page) ∧ (s.evictSlot i page).cache.slots[i]? = some none := by
  refine ⟨⟨hs.set (hs.together hi) (fun _ h => by cases h) (fun _ hq => AList.lookup_erase_ne hq)
    (AList.lookup_erase _ _), rfl, rfl, fun q hq => ?_, fun j other hj hd => ?_⟩, List.getElem?_set_self hi.lt⟩
  · have hne : q ≠ page.pageId := by
      rintro rfl
      rw [hs.mapped i page hi] at hq
      cases hq
    exact ⟨(AList.lookup_erase_ne hne).trans hq, flushed_off hne⟩
  · by_cases hij : i = j
    · subst hij
      obtain rfl := hi.unique hj
      refine .inr ⟨AList.lookup_erase _ _, fun hf => ?_⟩
      show s.flushed other other.pageId = other.data
      rw [Backed.flushed, if_pos ⟨hd, hf⟩, Function.update_self]
    · exact .inl ⟨other, (List.getElem?_set_ne hij).trans hj, rfl, rfl, hd⟩

theorem Booked.evictAtHand (hs : Booked s) :
    Parted s s.evictAtHand.2 ∧ s.evictAtHand.2.cache.slots[s.evictAtHand.1]? = some none := by
  unfold Backed.evictAtHand
  obtain ⟨page, hget, hi⟩ | ⟨hget, hi⟩ := hs.slot_or hs.hand
  · rw [hget]
    obtain ⟨hparted, hempty⟩ := hs.evictSlot hi
    exact ⟨hparted.trans hparted.booked.advance, hempty⟩
  · rw [hget]
    exact ⟨hs.advance, hi⟩

end Parting

/-! ### The clock -/

/-- A step of the clock that finds no victim: the mark of the page at the hand is
cleared, and the hand goes on. -/
def tick (s : Backed) : Backed :=
  match s.cache.slots.getD s.cache.clockHand none with
  | some page => (s.setSlot s.cache.clockHand { page with referenced := false }).advance
  | none => s.advance

/-- `k` steps of the clock. -/
def ticks : ℕ → Backed → Backed
  | 0, s => s
  | k + 1, s => ticks k (tick s)

/-- The page at the hand has no mark. -/
def Unmarked (s : Backed) : Prop :=
  ∃ page, s.cache.slots.getD s.cache.clockHand none = some page ∧ page.referenced = false

/-- The loop of `findVictim`, with something else behind it. -/
def sweepOr (fallback : Backed → ℕ × Backed) : ℕ → Backed → ℕ × Backed
  | 0, s => fallback s
  | n + 1, s =>
    match s.cache.slots.getD s.cache.clockHand none with
    | some page =>
      if page.referenced = false then s.evictAtHand
      else sweepOr fallback n (s.setSlot s.cache.clockHand { page with referenced := false }).advance
    | none => sweepOr fallback n s.advance

section Clock

variable {s : Backed}

theorem sweepOr_evictAtHand : ∀ (n : ℕ) (s : Backed), sweepOr Backed.evictAtHand n s = Backed.sweep n s
  | 0, _ => rfl
  | n + 1, s => by
    unfold sweepOr Backed.sweep
    cases s.cache.slots.getD s.cache.clockHand none with
    | none => exact sweepOr_evictAtHand n s.advance
    | some page =>
      dsimp only
      rw [sweepOr_evictAtHand n]

theorem sweepOr_succ (fallback : Backed → ℕ × Backed) (n : ℕ) (s : Backed) :
    (Unmarked s → sweepOr fallback (n + 1) s = s.evictAtHand) ∧
      (¬Unmarked s → sweepOr fallback (n + 1) s = sweepOr fallback n (tick s)) := by
  unfold Unmarked tick
  rw [sweepOr]
  cases hget : s.cache.slots.getD s.cache.clockHand none with
  | none => simp
  | some page => cases hr : page.referenced <;> simp [hr]

/-- The first steps of the clock find no victim, and the next one does. -/
def FoundAt (s : Backed) (k : ℕ) : Prop := Unmarked (ticks k s) ∧ ∀ j < k, ¬Unmarked (ticks j s)

theorem exists_foundAt {k : ℕ} (h : Unmarked (ticks k s)) : ∃ k' ≤ k, FoundAt s k' := by
  classical
  have hex : ∃ j, Unmarked (ticks j s) := ⟨k, h⟩
  exact ⟨Nat.find hex, Nat.find_min' hex h, Nat.find_spec hex, fun j hj => Nat.find_min hex hj⟩

/-- The loop ends where the victim is found, whatever is behind it. -/
theorem FoundAt.sweepOr_eq (fallback : Backed → ℕ × Backed) : ∀ {k n : ℕ} {s : Backed}, FoundAt s k → k < n →
    sweepOr fallback n s = (ticks k s).evictAtHand
  | 0, n + 1, s, h, _ => (sweepOr_succ fallback n s).1 h.1
  | k + 1, n + 1, s, h, hk => by
    have hrest : FoundAt (tick s) k := ⟨h.1, fun j hj => h.2 (j + 1) (Nat.succ_lt_succ hj)⟩
    rw [(sweepOr_succ fallback n s).2 (h.2 0 (Nat.succ_pos k)), hrest.sweepOr_eq fallback (Nat.lt_of_succ_lt_succ hk)]
    rfl

theorem Booked.tick (hs : Booked s) : Parted s (tick s) := by
  unfold Storage.tick
  obtain ⟨page, hget, hi⟩ | ⟨hget, -⟩ := hs.slot_or hs.hand
  · rw [hget]
    have hmark := hs.mark hi false
    exact hmark.trans hmark.booked.advance
  · rw [hget]
    exact hs.advance

theorem Booked.ticks : ∀ (k : ℕ) {s : Backed}, Booked s → Parted s (ticks k s)
  | 0, _, hs => .refl hs
  | k + 1, _, hs => hs.tick.trans (Booked.ticks k hs.tick.booked)

theorem ticks_succ : ∀ (k : ℕ) (s : Backed), ticks (k + 1) s = tick (ticks k s)
  | 0, _ => rfl
  | k + 1, s => ticks_succ k (tick s)

theorem tick_hand (s : Backed) : (tick s).cache.clockHand = (s.cache.clockHand + 1) % s.cache.capacityPages := by
  unfold tick
  split <;> rfl

/-- The clock clears the mark at the hand and touches no other slot. -/
theorem tick_inSlot_hand {page : CachedPage} (hi : InSlot s s.cache.clockHand page) :
    InSlot (tick s) s.cache.clockHand { page with referenced := false } := by
  unfold tick
  rw [hi.getD]
  exact List.getElem?_set_self hi.lt

theorem tick_inSlot_of_ne {page : CachedPage} {i : ℕ} (hi : InSlot s i page) (hne : s.cache.clockHand ≠ i) :
    InSlot (tick s) i page := by
  unfold tick
  split
  · exact (List.getElem?_set_ne hne).trans hi
  · exact hi

/-- Where the hand is after some steps, and within one turn what is in the slot
where it started. -/
theorem ticks_start (hs : Booked s) {page : CachedPage} (hi : InSlot s s.cache.clockHand page) :
    ∀ k, k < s.cache.capacityPages →
      (ticks (k + 1) s).cache.clockHand = (s.cache.clockHand + (k + 1)) % s.cache.capacityPages ∧
        InSlot (ticks (k + 1) s) s.cache.clockHand { page with referenced := false }
  | 0, _ => ⟨tick_hand s, tick_inSlot_hand hi⟩
  | k + 1, hk => by
    obtain ⟨hhand, hstart⟩ := ticks_start hs hi k (by omega)
    have hcap := (hs.ticks (k + 1)).capacity
    have hlt := hs.hand
    rw [ticks_succ, tick_hand, hhand, hcap, Nat.mod_add_mod]
    refine ⟨rfl, tick_inSlot_of_ne hstart ?_⟩
    -- the hand has gone on, and not yet all the way around
    rw [hhand]
    intro heq
    by_cases hturn : s.cache.clockHand + (k + 1) < s.cache.capacityPages
    · rw [Nat.mod_eq_of_lt hturn] at heq
      omega
    · rw [Nat.mod_eq_sub_mod (by omega), Nat.mod_eq_of_lt (by omega)] at heq
      omega

/-- With every slot full the clock finds a page without a mark within one turn. -/
theorem Booked.unmarked (hs : Booked s) (hfull : ∀ i : ℕ, s.cache.slots[i]? ≠ some none) :
    ∃ k ≤ s.cache.capacityPages, Unmarked (Storage.ticks k s) := by
  obtain ⟨page, hget, hi⟩ | ⟨-, hi⟩ := hs.slot_or hs.hand
  · obtain ⟨hhand, hstart⟩ := ticks_start hs hi (s.cache.capacityPages - 1) (by have := hs.hand; omega)
    have hcap : s.cache.capacityPages - 1 + 1 = s.cache.capacityPages := by have := hs.hand; omega
    rw [hcap] at hhand hstart
    rw [Nat.add_mod_right, Nat.mod_eq_of_lt hs.hand] at hhand
    exact ⟨_, le_rfl, _, by rw [hhand]; exact hstart.getD, rfl⟩
  · exact absurd hi (hfull _)

/-- `findVictim` gives an empty slot: the first there is, or the one the clock
frees within two turns, whatever is written for the case that it does not. -/
def VictimInTime (s : Backed) : Prop :=
  s.findVictim.2.cache.slots[s.findVictim.1]? = some none ∧
    ((∃ i, s.cache.slots.findIdx? Option.isNone = some i ∧ s.findVictim = (i, s)) ∨
      ∃ k < s.cache.capacityPages * 2, FoundAt s k ∧ s.findVictim = (ticks k s).evictAtHand ∧
        ∀ fallback, sweepOr fallback (s.cache.capacityPages * 2) s = s.findVictim)

theorem Booked.findVictim (hs : Booked s) : Parted s s.findVictim.2 ∧ VictimInTime s := by
  unfold VictimInTime
  cases hfind : s.cache.slots.findIdx? Option.isNone with
  | some i =>
    have heq : s.findVictim = (i, s) := by rw [Backed.findVictim, hfind]
    rw [heq]
    exact ⟨.refl hs, findIdx?_isNone hfind, .inl ⟨i, rfl, rfl⟩⟩
  | none =>
    have hfull : ∀ i : ℕ, s.cache.slots[i]? ≠ some none := fun i hi =>
      absurd (List.findIdx?_eq_none_iff.mp hfind none (List.mem_of_getElem? hi)) (by simp)
    obtain ⟨k, hk, hunmarked⟩ := hs.unmarked hfull
    obtain ⟨k', hk', hfound⟩ := exists_foundAt hunmarked
    have hlt : k' < s.cache.capacityPages * 2 := by have := hs.hand; omega
    have hsweep := fun fallback => hfound.sweepOr_eq fallback hlt
    have heq : s.findVictim = (Storage.ticks k' s).evictAtHand := by
      rw [Backed.findVictim, hfind, ← hsweep Backed.evictAtHand, sweepOr_evictAtHand]
    obtain ⟨hevict, hempty⟩ := (hs.ticks k').booked.evictAtHand
    rw [heq]
    exact ⟨(hs.ticks k').trans hevict, hempty, .inr ⟨k', hlt, hfound, rfl, hsweep⟩⟩

end Clock

/-! ### The operations -/

/-- What an operation keeps: the bookkeeping, and no change is lost with a page that
leaves. -/
structure Kept (s s' : Backed) : Prop where
  booked : Booked s'
  capacity : s'.cache.capacityPages = s.cache.capacityPages
  hasFlusher : s'.cache.hasFlusher = s.cache.hasFlusher
  flushed : s.cache.hasFlusher = true → ∀ i page, InSlot s i page → page.dirty = true →
    s'.cache.pageToSlot.lookup page.pageId = none → s'.disk page.pageId = page.data

section Operations

variable {s s' : Backed} {i : ℕ} {page : CachedPage} {p : PageId}

theorem Parted.kept (h : Parted s s') : Kept s s' := by
  refine ⟨h.booked, h.capacity, h.hasFlusher, fun hf i page hi hd hnone => ?_⟩
  obtain ⟨page', hi', hid, -, -⟩ | ⟨-, hflush⟩ := h.changed i page hi hd
  · rw [← hid, h.booked.mapped i page' hi'] at hnone
    cases hnone
  · exact hflush hf

/-- Nothing leaves while the map stays as it is. -/
theorem Kept.of_map (hs : Booked s) (hs' : Booked s') (hmap : s'.cache.pageToSlot = s.cache.pageToSlot)
    (hcap : s'.cache.capacityPages = s.cache.capacityPages) (hf : s'.cache.hasFlusher = s.cache.hasFlusher) :
    Kept s s' := by
  refine ⟨hs', hcap, hf, fun _ i page hi _ hnone => ?_⟩
  rw [hmap, hs.mapped i page hi] at hnone
  cases hnone

/-- A page that was not there is put into an empty slot. -/
theorem Parted.place (h : Parted s s') (hi : s'.cache.slots[i]? = some none)
    (hp : s.cache.pageToSlot.lookup page.pageId = none) : Kept s (s'.place i page) := by
  have hnew := (h.absent _ hp).1
  have hbooked : Booked (s'.place i page) :=
    h.booked.set (h.booked.together_of_empty hi hnew) (fun _ heq => Option.some.inj heq ▸ rfl)
      (fun _ hq => AList.lookup_insert_ne hq) (AList.lookup_insert _)
  refine ⟨hbooked, h.capacity, h.hasFlusher, fun hf j other hj hd hnone => ?_⟩
  have hne : other.pageId ≠ page.pageId := by
    intro heq
    have hmap : (s'.place i page).cache.pageToSlot.lookup page.pageId = some i := AList.lookup_insert _
    rw [heq, hmap] at hnone
    cases hnone
  have hleft : s'.cache.pageToSlot.lookup other.pageId = none := (AList.lookup_insert_ne hne).symm.trans hnone
  exact h.kept.flushed hf j other hj hd hleft

/-- What is in a slot gets other bytes and marks. -/
theorem Kept.setSlot (h : Kept s s') (hi : InSlot s' i page) (page' : CachedPage)
    (hid : page'.pageId = page.pageId) : Kept s (s'.setSlot i page') :=
  have hbooked : Booked (s'.setSlot i page') := h.booked.setSlot hi page' hid s'.disk
  ⟨hbooked, h.capacity, h.hasFlusher, h.flushed⟩

/-- Room is made for a page that was not there, and the page put into it. -/
theorem Booked.place_findVictim (hs : Booked s) (page : CachedPage)
    (hp : s.cache.pageToSlot.lookup page.pageId = none) :
    Kept s (s.miss.findVictim.2.place s.miss.findVictim.1 page) ∧
      InSlot (s.miss.findVictim.2.place s.miss.findVictim.1 page) s.miss.findVictim.1 page := by
  have hmiss : Parted s s.miss := hs.counts hs.hand
  obtain ⟨hparted, hempty, -⟩ := hmiss.booked.findVictim
  exact ⟨(hmiss.trans hparted).place hempty hp,
    List.getElem?_set_self (List.getElem?_eq_some_iff.mp hempty).1⟩

theorem Booked.fetchPage (hs : Booked s) (p : PageId) : ∃ r, s.fetchPage p = .ok r ∧ Kept s r.2 := by
  unfold Backed.fetchPage
  cases hl : s.cache.pageToSlot.lookup p with
  | some i =>
    obtain ⟨page, hi, -⟩ := hs.slot p i hl
    dsimp only
    rw [hi.getD]
    have hmark := hs.mark hi true
    exact ⟨_, rfl, (hmark.trans (hmark.booked.counts hmark.booked.hand)).kept⟩
  | none =>
    dsimp only
    split
    · exact ⟨_, rfl, (hs.counts hs.hand).kept⟩
    · exact ⟨_, rfl, (hs.place_findVictim _ hl).1⟩

/-- The slot of a write holds the page, or zeros for one that was not there. -/
theorem Booked.slotToWrite (hs : Booked s) (p : PageId) : ∃ page,
    Kept s (s.slotToWrite p).2 ∧ InSlot (s.slotToWrite p).2 (s.slotToWrite p).1 page ∧
      ((∃ i, InSlot s i page ∧ page.pageId = p) ∨ page.data.length = s.cache.pageSize) := by
  unfold Backed.slotToWrite
  cases hl : s.cache.pageToSlot.lookup p with
  | some i =>
    obtain ⟨page, hi, hid⟩ := hs.slot p i hl
    exact ⟨page, (hs.counts hs.hand).kept, hi, .inl ⟨i, hi, hid⟩⟩
  | none =>
    obtain ⟨hkept, hin⟩ := hs.place_findVictim ⟨p, List.replicate s.cache.pageSize 0, true, false⟩ hl
    exact ⟨_, hkept, hin, .inr List.length_replicate⟩

/-- A write ends, unless the page is there with fewer bytes than are copied. -/
theorem Booked.writePage (hs : Booked s) (p : PageId) (data : List UInt8) :
    (∃ s', s.writePage p data = .ok s' ∧ Kept s s') ∨
      s.writePage p data = .error .outside ∧ ∃ i page, InSlot s i page ∧ page.pageId = p ∧
        page.data.length < min data.length s.cache.pageSize := by
  obtain ⟨page, hkept, hin, hpage⟩ := hs.slotToWrite p
  unfold Backed.writePage
  dsimp only
  rw [hin.getD]
  dsimp only
  by_cases hfits : min data.length s.cache.pageSize ≤ page.data.length
  · rw [Checked.within_of_le (by omega), Checked.ok_bind]
    exact .inl ⟨_, rfl, hkept.setSlot hin _ rfl⟩
  · rw [Checked.within_of_lt (by omega), Checked.error_bind]
    obtain ⟨i, hi, hid⟩ | hlen := hpage
    · exact .inr ⟨rfl, i, page, hi, hid, by omega⟩
    · omega

theorem Booked.flushSlot (hs : Booked s) (hi : InSlot s i page) : Kept s (s.flushSlot i page) :=
  have hbooked : Booked (s.flushSlot i page) :=
    hs.setSlot hi { page with dirty := false } rfl (s.flushed page)
  .of_map hs hbooked rfl rfl rfl

theorem Booked.flushPage (hs : Booked s) (p : PageId) : Kept s (s.flushPage p).2 := by
  unfold Backed.flushPage
  split
  · exact (Parted.refl hs).kept
  · cases hl : s.cache.pageToSlot.lookup p with
    | none => exact (Parted.refl hs).kept
    | some i =>
      obtain ⟨page, hi, -⟩ := hs.slot p i hl
      dsimp only
      rw [hi.getD]
      dsimp only
      split
      · exact (Parted.refl hs).kept
      · exact hs.flushSlot hi

/-- Flushing one slot after the other leaves the map as it is. -/
theorem Booked.flushSlots : ∀ (is : List ℕ) {s : Backed}, Booked s → (∀ i ∈ is, i < s.cache.slots.length) →
    Booked (Backed.flushSlots is s) ∧ (Backed.flushSlots is s).cache.pageToSlot = s.cache.pageToSlot ∧
      (Backed.flushSlots is s).cache.capacityPages = s.cache.capacityPages ∧
      (Backed.flushSlots is s).cache.hasFlusher = s.cache.hasFlusher
  | [], _, hs, _ => ⟨hs, rfl, rfl, rfl⟩
  | i :: is, s, hs, his => by
    obtain ⟨hi, his⟩ := List.forall_mem_cons.mp his
    unfold Backed.flushSlots
    obtain ⟨page, hget, hin⟩ | ⟨hget, -⟩ := hs.slot_or (hs.length ▸ hi)
    · rw [hget]
      dsimp only
      split
      · have hflush := hs.flushSlot hin
        refine Booked.flushSlots is hflush.booked fun j hj => ?_
        rw [hflush.booked.length, hflush.capacity, ← hs.length]
        exact his j hj
      · exact Booked.flushSlots is hs his
    · rw [hget]
      exact Booked.flushSlots is hs his

theorem Booked.flushAll (hs : Booked s) : Kept s s.flushAll := by
  unfold Backed.flushAll
  split
  · exact (Parted.refl hs).kept
  · obtain ⟨hbooked, hmap, hcap, hf⟩ := Booked.flushSlots _ hs fun i hi => List.mem_range.mp hi
    exact .of_map hs hbooked hmap hcap hf

theorem Booked.evictPage (hs : Booked s) (p : PageId) : Parted s (s.evictPage p) := by
  unfold Backed.evictPage
  cases hl : s.cache.pageToSlot.lookup p with
  | none => exact .refl hs
  | some i =>
    obtain ⟨page, hi, rfl⟩ := hs.slot p i hl
    dsimp only
    rw [hi.getD]
    exact (hs.evictSlot hi).1

theorem Booked.evictPages : ∀ (ps : List PageId) {s : Backed}, Booked s → Parted s (ps.foldl Backed.evictPage s)
  | [], _, hs => .refl hs
  | p :: ps, _, hs => (hs.evictPage p).trans (Booked.evictPages ps (hs.evictPage p).booked)

/-- What one operation comes to: it keeps the bookkeeping, or writes past the end of
a page that was loaded short. -/
theorem Booked.step (hs : Booked s) (o : PageOp) :
    (∃ r, s.step o = .ok r ∧ Kept s r.2) ∨
      s.step o = .error .outside ∧ ∃ p data i page, o = .writePage p data ∧ InSlot s i page ∧ page.pageId = p ∧
        page.data.length < min data.length s.cache.pageSize := by
  cases o with
  | fetchPage p =>
    obtain ⟨r, hr, hkept⟩ := hs.fetchPage p
    exact .inl ⟨([r.1], r.2), by rw [Backed.step, hr, Checked.ok_bind], hkept⟩
  | writePage p data =>
    obtain ⟨s', hs', hkept⟩ | ⟨herr, i, page, hi, hid, hlt⟩ := hs.writePage p data
    · exact .inl ⟨([], s'), by rw [Backed.step, hs', Checked.ok_bind], hkept⟩
    · exact .inr ⟨by rw [Backed.step, herr, Checked.error_bind], p, data, i, page, rfl, hi, hid, hlt⟩
  | flushPage p => exact .inl ⟨_, rfl, hs.flushPage p⟩
  | flushAll => exact .inl ⟨_, rfl, hs.flushAll⟩
  | evictFile fileId => exact .inl ⟨_, rfl, (Booked.evictPages _ hs).kept⟩

end Operations

/-! ### Runs -/

/-- What the loader answers. -/
abbrev Answers := PageId → List UInt8

/-- The cache after operations, each with what the loader answers at its time. -/
def reached : List (Answers × PageOp) → Backed → Checked String Backed
  | [], s => .ok s
  | (disk, o) :: ops, s => do
    let r ← { s with disk }.step o
    reached ops r.2

theorem booked_new {capacityPages : ℕ} (hcap : 1 ≤ capacityPages) (pageSize : ℕ) (hasFlusher : Bool)
    (disk : Answers) : Booked ⟨.new capacityPages pageSize hasFlusher, disk⟩ := by
  refine ⟨List.length_replicate, hcap, fun p i h => ?_, fun i page h => ?_⟩
  · simp [PageCache.new] at h
  · simp [InSlot, PageCache.new, List.getElem?_replicate] at h

/-- What every run preserves. -/
theorem booked_of_reached : ∀ {ops : List (Answers × PageOp)} {s s' : Backed}, Booked s →
    reached ops s = .ok s' → Booked s' ∧ s'.cache.capacityPages = s.cache.capacityPages
  | [], _, _, hs, h => by
    cases h
    exact ⟨hs, rfl⟩
  | (disk, o) :: ops, s, s', hs, h => by
    have hs' : Booked { s with disk } := ⟨hs.length, hs.hand, hs.slot, hs.mapped⟩
    rw [reached] at h
    obtain ⟨r, hr, hkept⟩ | ⟨herr, -⟩ := hs'.step o
    · rw [hr, Checked.ok_bind] at h
      obtain ⟨hbooked, hcap⟩ := booked_of_reached hkept.booked h
      exact ⟨hbooked, hcap.trans hkept.capacity⟩
    · rw [herr, Checked.error_bind] at h
      cases h

/-- Each page is in a slot of its own. -/
theorem Booked.resident_le {s : Backed} (hs : Booked s) :
    s.cache.pageToSlot.keys.length ≤ s.cache.capacityPages := by
  have hslot : ∀ p ∈ s.cache.pageToSlot.keys, ∃ i page, s.cache.pageToSlot.lookup p = some i ∧
      InSlot s i page ∧ page.pageId = p := by
    intro p hp
    obtain ⟨i, hi⟩ := Option.isSome_iff_exists.mp (AList.lookup_isSome.mpr hp)
    obtain ⟨page, hin, hid⟩ := hs.slot p i hi
    exact ⟨i, page, hi, hin, hid⟩
  have hnodup : (s.cache.pageToSlot.keys.map fun p => (s.cache.pageToSlot.lookup p).getD 0).Nodup := by
    refine List.Nodup.map_on (fun p hp q hq heq => ?_) s.cache.pageToSlot.keys_nodup
    obtain ⟨i, page, hi, hin, rfl⟩ := hslot p hp
    obtain ⟨j, other, hj, hjn, rfl⟩ := hslot q hq
    simp only [hi, hj, Option.getD_some] at heq
    subst heq
    rw [hin.unique hjn]
  have hsub : (s.cache.pageToSlot.keys.map fun p => (s.cache.pageToSlot.lookup p).getD 0) ⊆
      List.range s.cache.capacityPages := by
    intro k hk
    obtain ⟨p, hp, rfl⟩ := List.mem_map.mp hk
    obtain ⟨i, page, hi, hin, -⟩ := hslot p hp
    rw [hi, Option.getD_some, List.mem_range, ← hs.length]
    exact hin.lt
  simpa using (List.subperm_of_subset hnodup hsub).length_le

/-- **After every run: the map and the occupied slots are inverse to each other, no
more pages than slots are there, and the hand is at a slot; the next operation ends,
or writes past the end of a page, and flushes every changed page that leaves; and
`findVictim` gives an empty slot within two turns of the clock.** -/
theorem bookkeeping (capacityPages pageSize : ℕ) (hasFlusher : Bool) (disk : Answers) (hcap : 1 ≤ capacityPages)
    (ops : List (Answers × PageOp)) (s : Backed)
    (h : reached ops ⟨.new capacityPages pageSize hasFlusher, disk⟩ = .ok s) :
    (∀ p i, s.cache.pageToSlot.lookup p = some i ↔ ∃ page, InSlot s i page ∧ page.pageId = p) ∧
      s.cache.pageToSlot.keys.length ≤ capacityPages ∧ s.cache.clockHand < capacityPages ∧
      s.cache.capacityPages = capacityPages ∧
      (∀ disk' o, (∃ r, { s with disk := disk' }.step o = .ok r ∧ Kept { s with disk := disk' } r.2) ∨
        { s with disk := disk' }.step o = .error .outside ∧ ∃ p data i page, o = .writePage p data ∧
          InSlot s i page ∧ page.pageId = p ∧ page.data.length < min data.length s.cache.pageSize) ∧
      VictimInTime s := by
  obtain ⟨hs, hcap'⟩ := booked_of_reached (booked_new hcap pageSize hasFlusher disk) h
  have hcap'' : s.cache.capacityPages = capacityPages := hcap'
  have hle := hs.resident_le
  have hhand := hs.hand
  rw [hcap''] at hle hhand
  refine ⟨fun p i => ⟨hs.slot p i, ?_⟩, hle, hhand, hcap'', fun disk' o => ?_, hs.findVictim.2⟩
  · rintro ⟨page, hi, rfl⟩
    exact hs.mapped i page hi
  · have hs' : Booked { s with disk := disk' } := ⟨hs.length, hs.hand, hs.slot, hs.mapped⟩
    exact hs'.step o

/-- One slot, a page written into it and another one fetched: the first one has to
leave. -/
theorem bookkeeping_oneSlot : ∃ s : Backed,
    reached [(fun _ => [], .writePage ⟨0, 0⟩ [1]), (fun _ => [7, 7], .fetchPage ⟨0, 1⟩)]
      ⟨.new 1 2 true, fun _ => []⟩ = .ok s ∧
    s.cache.pageToSlot.keys.length ≤ 1 ∧ VictimInTime s := by
  refine ⟨_, rfl, ?_⟩
  obtain ⟨-, hle, -, -, -, hvictim⟩ := bookkeeping 1 2 true (fun _ => []) le_rfl
    [(fun _ => [], .writePage ⟨0, 0⟩ [1]), (fun _ => [7, 7], .fetchPage ⟨0, 1⟩)] _ rfl
  exact ⟨hle, hvictim⟩

end Storage
end Amind
