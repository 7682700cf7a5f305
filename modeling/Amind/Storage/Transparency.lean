/-
# Does the cache show?

What a fetch gives should not depend on which pages the cache had room for.
`Pages` says what it should give: it has the bytes of all pages, those a cache
that never evicts has used, and the page that was used last.

A cache of any size gives that, as long as a write to a page that was used
before either is to the page used last, which no cache has evicted since, or
leaves zeros behind its bytes (`transparent_iff`). The write of any other page
shows whether it was evicted: one that is there keeps its tail, one that is not
is not loaded but starts as zeros. A page that was loaded with fewer bytes than
are written is written past its end.

Key definitions: `Transparent`, `Pages`, `Fits`.
-/
import Amind.Storage.PageCache
import Amind.Lib.Run

namespace Amind
namespace Storage

open Checked (Safe)

inductive PageOp
  | fetchPage (p : PageId)
  | writePage (p : PageId) (data : List UInt8)
  | flushPage (p : PageId)
  | flushAll
  | evictFile (fileId : UInt64)
  deriving DecidableEq

abbrev Fetched := Except String (List UInt8)

/-- What is fetched by an operation, and the cache after it. -/
def Backed.step (s : Backed) : PageOp → Checked String (List Fetched × Backed)
  | .fetchPage p => do
    let r ← s.fetchPage p
    .ok ([r.1], r.2)
  | .writePage p data => do
    let s' ← s.writePage p data
    .ok ([], s')
  | .flushPage p => .ok ([], (s.flushPage p).2)
  | .flushAll => .ok ([], s.flushAll)
  | .evictFile fileId => .ok ([], s.evictFile fileId)

def Backed.steps : List PageOp → Backed → Checked String (List Fetched × Backed)
  | [], s => .ok ([], s)
  | o :: os, s => do
    let r ← s.step o
    let rest ← steps os r.2
    .ok (r.1 ++ rest.1, rest.2)

/-- What is fetched, in order, with a cache of `capacityPages`. -/
def fetched (capacityPages pageSize : ℕ) (disk : PageId → List UInt8) (ops : List PageOp) :
    Checked String (List Fetched) := do
  let r ← Backed.steps ops ⟨.new capacityPages pageSize true, disk⟩
  .ok r.1

/-- The size of the cache does not show, and no write goes past the end of a page. -/
def Transparent (pageSize : ℕ) (disk : PageId → List UInt8) (ops : List PageOp) : Prop :=
  ∀ n m, 0 < n → 0 < m → fetched n pageSize disk ops = fetched m pageSize disk ops ∧ Safe (fetched n pageSize disk ops)

/-! ### Pages without a cache -/

/-- The bytes of all pages; which of them have been used since their file was evicted;
and which was used last. -/
structure Pages where
  content : PageId → List UInt8
  held : PageId → Bool
  last : Option PageId

def Pages.start (disk : PageId → List UInt8) : Pages := ⟨disk, fun _ => false, none⟩

namespace Pages

variable (pageSize : ℕ) (a : Pages)

def fetched : PageOp → List Fetched
  | .fetchPage p => [if a.content p = [] then .error (Backed.loadError p) else .ok (a.content p)]
  | _ => []

/-- The page has been used, and has these bytes. -/
def used (p : PageId) (data : List UInt8) : Pages :=
  ⟨Function.update a.content p data, Function.update a.held p true, some p⟩

@[simp] theorem used_content_self (p : PageId) (data : List UInt8) : (a.used p data).content p = data := by
  simp [used]

@[simp] theorem used_held_self (p : PageId) (data : List UInt8) : (a.used p data).held p = true := by
  simp [used]

theorem used_content_of_ne {p q : PageId} (hq : q ≠ p) (data : List UInt8) :
    (a.used p data).content q = a.content q := by
  simp [used, hq]

theorem used_held_of_ne {p q : PageId} (hq : q ≠ p) (data : List UInt8) : (a.used p data).held q = a.held q := by
  simp [used, hq]

/-- What a page has before it is written. -/
def base (p : PageId) : List UInt8 := if a.held p then a.content p else List.replicate pageSize 0

def next : PageOp → Pages
  | .fetchPage p => if a.content p = [] then a else a.used p (a.content p)
  | .writePage p data => a.used p (overwrite (a.base pageSize p) (data.take pageSize))
  | .flushPage _ => a
  | .flushAll => a
  | .evictFile fileId =>
    { a with held := fun p => a.held p && p.fileId ≠ fileId, last := a.last.filter fun p => p.fileId ≠ fileId }

/-- A write to a page that was used has bytes to write over, and the page was used last
or has zeros behind them, up to a page's size. -/
def Writable (p : PageId) (data : List UInt8) : Prop :=
  if a.held p then
    (data.take pageSize).length ≤ (a.content p).length ∧ (a.last = some p ∨
      (a.content p).drop (data.take pageSize).length = List.replicate (pageSize - (data.take pageSize).length) 0)
  else 0 < pageSize

instance decidableWritable (p : PageId) (data : List UInt8) : Decidable (a.Writable pageSize p data) :=
  inferInstanceAs (Decidable (if a.held p then
    (data.take pageSize).length ≤ (a.content p).length ∧ (a.last = some p ∨
      (a.content p).drop (data.take pageSize).length = List.replicate (pageSize - (data.take pageSize).length) 0)
    else 0 < pageSize))

def Fits : PageOp → Prop
  | .writePage p data => a.Writable pageSize p data
  | _ => True

instance decidableFits : ∀ o, Decidable (a.Fits pageSize o)
  | .writePage p data => decidableWritable pageSize a p data
  | .fetchPage _ => .isTrue trivial
  | .flushPage _ => .isTrue trivial
  | .flushAll => .isTrue trivial
  | .evictFile _ => .isTrue trivial

end Pages

/-! ### A cache of any size -/

/-- A cache has the bytes it should have, no pages but those that were used, and the one
that was used last. -/
structure Refines (pageSize : ℕ) (s : Backed) (a : Pages) : Prop where
  sound : Sound s
  pageSize : s.cache.pageSize = pageSize
  content : ∀ p, content s p = a.content p
  held : ∀ p, pageAt s p ≠ none → a.held p = true
  last : ∀ p, a.last = some p → pageAt s p ≠ none
  nonempty : ∀ p, a.held p = true → a.content p ≠ []

section Refinement

variable {pageSize : ℕ} {s s' s'' : Backed} {a : Pages} {p : PageId} {page : CachedPage}

theorem Refines.keep (h : Refines pageSize s a) (hk : Keeps (fun _ => True) s s') : Refines pageSize s' a where
  sound := hk.sound
  pageSize := hk.pageSize.trans h.pageSize
  content p := (hk.content p).trans (h.content p)
  held p hp := h.held p fun hnone => hp (hk.gone p hnone)
  last p hp hnone := h.last p hp (hk.stays p trivial hnone)
  nonempty := h.nonempty

/-- A page that is used is put into the cache, for which others may leave. -/
theorem Refines.used (h : Refines pageSize s a) (hk : Keeps (fun _ => False) s s') (hb : Becomes s' s'' p (some page))
    (hdata : page.data ≠ []) : Refines pageSize s'' (a.used p page.data) := by
  refine ⟨hb.sound, hb.pageSize.trans (hk.pageSize.trans h.pageSize), fun q => ?_, fun q hq => ?_, fun q hq => ?_,
    fun q hq => ?_⟩
  · by_cases hp : q = p
    · rw [hp, content_of_some hb.here, Pages.used_content_self]
    · rw [hb.content hp, hk.content, h.content, a.used_content_of_ne hp]
  · by_cases hp : q = p
    · rw [hp, Pages.used_held_self]
    · rw [hb.off q hp] at hq
      rw [a.used_held_of_ne hp]
      exact h.held q fun hnone => hq (hk.gone q hnone)
  · obtain rfl := Option.some.inj hq
    rw [hb.here]
    exact Option.some_ne_none _
  · by_cases hp : q = p
    · rw [hp, Pages.used_content_self]
      exact hdata
    · rw [a.used_held_of_ne hp] at hq
      rw [a.used_content_of_ne hp]
      exact h.nonempty q hq

/-- A page that is there is used. -/
theorem Refines.used_hit (h : Refines pageSize s a) (hk : Keeps (fun _ => True) s s') (hp : pageAt s p ≠ none) :
    Refines pageSize s' (a.used p (a.content p)) := by
  have hheld := h.held p hp
  have hsame : a.used p (a.content p) = { a with last := some p } := by
    unfold Pages.used
    rw [Function.update_eq_self, ← hheld, Function.update_eq_self]
  rw [hsame]
  have hkeep := h.keep hk
  refine ⟨hkeep.sound, hkeep.pageSize, hkeep.content, hkeep.held, fun q hq hnone => hp ?_, hkeep.nonempty⟩
  obtain rfl := Option.some.inj hq
  exact hk.stays p trivial hnone

theorem Refines.evictFile (h : Refines pageSize s a) (fileId : UInt64) :
    Refines pageSize (s.evictFile fileId) (a.next pageSize (.evictFile fileId)) := by
  obtain ⟨hk, hgone⟩ := h.sound.evictFile fileId
  refine ⟨hk.sound, hk.pageSize.trans h.pageSize, fun p => (hk.content p).trans (h.content p), fun p hp => ?_,
    fun p hp hnone => ?_, fun p hp => ?_⟩
  · have hfile : p.fileId ≠ fileId := fun heq => hp (hgone p heq)
    exact Bool.and_eq_true_iff.mpr ⟨h.held p fun hnone => hp (hk.gone p hnone), decide_eq_true hfile⟩
  · obtain ⟨hlast, hfile⟩ := Option.filter_eq_some_iff.mp hp
    exact h.last p hlast (hk.stays p (of_decide_eq_true hfile) hnone)
  · exact h.nonempty p (Bool.and_eq_true_iff.mp hp).1

theorem overwrite_ne_nil {data d : List UInt8} (h : data ≠ []) (hle : d.length ≤ data.length) :
    overwrite data d ≠ [] := by
  have hpos := List.length_pos_of_ne_nil h
  refine List.ne_nil_of_length_pos ?_
  unfold overwrite
  rw [List.length_append, List.length_drop]
  omega

/-- What is written, if the page fits. -/
theorem Pages.Writable.overwrite_base {data : List UInt8} (hfits : a.Writable pageSize p data)
    (hnonempty : a.held p = true → a.content p ≠ []) : overwrite (a.base pageSize p) (data.take pageSize) ≠ [] := by
  unfold Pages.Writable at hfits
  unfold Pages.base
  by_cases hheld : a.held p = true
  · rw [if_pos hheld] at hfits ⊢
    exact overwrite_ne_nil (hnonempty hheld) hfits.1
  · rw [if_neg hheld] at hfits ⊢
    refine overwrite_ne_nil (List.ne_nil_of_length_pos ?_) ?_
    · rw [List.length_replicate]
      exact hfits
    · rw [List.length_replicate]
      exact List.length_take_le _ _

/-- A page is in the cache afterwards. While a slot is empty no page leaves for it, and no
slot behind that one is taken. -/
structure Uses (s s' : Backed) (p : PageId) : Prop where
  here : pageAt s' p ≠ none
  capacity : s'.cache.capacityPages = s.cache.capacityPages
  roomy : ∀ n : ℕ, s.cache.slots[n]? = some none → (∀ q, pageAt s' q = none → pageAt s q = none) ∧
    ∀ j, n < j → s.cache.slots[j]? = some none → s'.cache.slots[j]? = some none

theorem Keeps.uses (hk : Keeps (fun _ => True) s s') (hp : pageAt s p ≠ none) : Uses s s' p :=
  ⟨fun hnone => hp (hk.stays p trivial hnone), hk.capacity, fun _ _ =>
    ⟨fun q => hk.stays q trivial, fun j _ => hk.vacant j⟩⟩

theorem Becomes.uses (hb : Becomes s s' p (some page))
    (hvacant : ∀ j : ℕ, s.cache.slots[j]? = some none → s'.cache.slots[j]? = some none) : Uses s s' p := by
  refine ⟨by rw [hb.here]; exact Option.some_ne_none _, hb.capacity, fun n _ => ⟨fun q hq => ?_, fun j _ => hvacant j⟩⟩
  rwa [hb.off q (hb.ne_of_none hq)] at hq

theorem uses_place (hs : Sound s) (hp : pageAt s page.pageId = none)
    (hclean : page.dirty = false → page.data = s.disk page.pageId) :
    Uses s (s.miss.findVictim.2.place s.miss.findVictim.1 page) page.pageId := by
  have hmiss := hs.miss
  have hroom := hmiss.sound.findVictim
  have hb := placed page (hmiss.gone _ hp) hclean hroom
  refine ⟨by rw [hb.here]; exact Option.some_ne_none _, ?_, fun n hn => ?_⟩
  · exact hb.capacity.trans (hroom.1.capacity.trans hmiss.capacity)
  · obtain ⟨i, hi, hfind⟩ := findVictim_of_empty (hmiss.vacant n hn)
    rw [hfind] at hb ⊢
    refine ⟨fun q hq => ?_, fun j hj hempty => ?_⟩
    · rw [hb.off q (hb.ne_of_none hq)] at hq
      exact hmiss.stays q trivial hq
    · have hne : i ≠ j := by omega
      exact (List.getElem?_set_ne hne).trans (hmiss.vacant j hempty)

/-- What an operation does to the cache. -/
def Does (s s' : Backed) (a : Pages) : PageOp → Prop
  | .fetchPage p => if a.content p = [] then Keeps (fun _ => True) s s' else Uses s s' p
  | .writePage p _ => Uses s s' p
  | .flushPage _ => Keeps (fun _ => True) s s'
  | .flushAll => Keeps (fun _ => True) s s'
  | .evictFile fileId =>
    Keeps (fun p => p.fileId ≠ fileId) s s' ∧ ∀ p : PageId, p.fileId = fileId → pageAt s' p = none

theorem Does.capacity {o : PageOp} (hd : Does s s' a o) : s'.cache.capacityPages = s.cache.capacityPages := by
  cases o with
  | fetchPage p =>
    unfold Does at hd
    dsimp only at hd
    split at hd
    · exact hd.capacity
    · exact hd.capacity
  | writePage p data => exact Uses.capacity hd
  | flushPage p => exact Keeps.capacity hd
  | flushAll => exact Keeps.capacity hd
  | evictFile fileId => exact hd.1.capacity

theorem Refines.fetchPage (h : Refines pageSize s a) (p : PageId) : ∃ s', s.step (.fetchPage p) =
    .ok (a.fetched (.fetchPage p), s') ∧ Refines pageSize s' (a.next pageSize (.fetchPage p)) ∧
      Does s s' a (.fetchPage p) := by
  unfold Backed.step Pages.fetched Pages.next Does
  cases hp : pageAt s p with
  | some page =>
    have hsome : pageAt s p ≠ none := by
      rw [hp]
      exact Option.some_ne_none _
    have hdata : a.content p = page.data := (h.content p).symm.trans (content_of_some hp)
    have hne := h.nonempty p (h.held p hsome)
    obtain ⟨s', hfetch, hk⟩ := h.sound.fetchPage_hit hp
    refine ⟨s', ?_, ?_⟩
    · dsimp only
      rw [hfetch, Checked.ok_bind, if_neg hne, hdata]
    · dsimp only
      rw [if_neg hne, if_neg hne]
      exact ⟨h.used_hit hk hsome, hk.uses hsome⟩
  | none =>
    have hdata : a.content p = s.disk p := (h.content p).symm.trans (content_of_none hp)
    by_cases hempty : s.disk p = []
    · obtain ⟨hfetch, hk⟩ := h.sound.fetchPage_none hp hempty
      refine ⟨s.miss, ?_, ?_⟩
      · dsimp only
        rw [hfetch, Checked.ok_bind, if_pos (hdata.trans hempty)]
      · dsimp only
        rw [if_pos (hdata.trans hempty), if_pos (hdata.trans hempty)]
        exact ⟨h.keep hk, hk⟩
    · have hne : a.content p ≠ [] := fun heq => hempty (hdata.symm.trans heq)
      have hmiss := h.sound.miss
      have hroom := hmiss.sound.findVictim
      have hb := placed ⟨p, s.disk p, true, false⟩ (hmiss.gone p hp) (fun _ => rfl) hroom
      refine ⟨s.miss.findVictim.2.place s.miss.findVictim.1 ⟨p, s.disk p, true, false⟩, ?_, ?_⟩
      · dsimp only
        rw [h.sound.fetchPage_miss hp hempty, Checked.ok_bind, if_neg hne, hdata]
      · dsimp only
        rw [if_neg hne, if_neg hne, hdata]
        exact ⟨(h.keep hmiss).used hroom.1 hb hempty, uses_place h.sound hp fun _ => rfl⟩

theorem Refines.writePage {data : List UInt8} (h : Refines pageSize s a) (hfits : a.Writable pageSize p data) :
    ∃ s', s.step (.writePage p data) = .ok ([], s') ∧ Refines pageSize s' (a.next pageSize (.writePage p data)) ∧
      Uses s s' p := by
  have hnonempty := hfits.overwrite_base (h.nonempty p)
  unfold Backed.step Pages.next
  dsimp only
  unfold Pages.base at hnonempty ⊢
  unfold Pages.Writable at hfits
  cases hp : pageAt s p with
  | some page =>
    have hsome : pageAt s p ≠ none := by
      rw [hp]
      exact Option.some_ne_none _
    have hheld := h.held p hsome
    have hdata : a.content p = page.data := (h.content p).symm.trans (content_of_some hp)
    rw [if_pos hheld, hdata] at hnonempty hfits
    obtain ⟨s', hwrite, hb, hvacant⟩ := h.sound.writePage_hit hp data
    rw [h.pageSize] at hwrite hb
    refine ⟨s', ?_, ?_⟩
    · rw [hwrite, Checked.within_of_le (by have := hfits.1; omega)]
      rfl
    · rw [if_pos hheld, hdata]
      exact ⟨h.used (.refl h.sound) hb hnonempty, hb.uses hvacant⟩
  | none =>
    have hmiss := h.sound.miss
    have hroom := hmiss.sound.findVictim
    -- the page starts as zeros, and if it was used before it has zeros there
    have hsame : overwrite (List.replicate pageSize 0) (data.take pageSize) =
        overwrite (if a.held p then a.content p else List.replicate pageSize 0) (data.take pageSize) := by
      by_cases hheld : a.held p = true
      · rw [if_pos hheld] at hfits ⊢
        have hzeros := hfits.2.resolve_left fun hlast => h.last p hlast hp
        unfold overwrite
        rw [hzeros, List.drop_replicate]
      · rw [if_neg hheld]
    refine ⟨s.miss.findVictim.2.place s.miss.findVictim.1
      ⟨p, overwrite (List.replicate pageSize 0) (data.take pageSize), true, true⟩, ?_, ?_⟩
    · rw [h.sound.writePage_miss hp data, h.pageSize]
      rfl
    · rw [← hsame] at hnonempty ⊢
      have hb := placed ⟨p, overwrite (List.replicate pageSize 0) (data.take pageSize), true, true⟩
        (hmiss.gone p hp) (fun hd => by cases hd) hroom
      exact ⟨(h.keep hmiss).used hroom.1 hb hnonempty, uses_place h.sound hp fun hd => by cases hd⟩

theorem Refines.step (h : Refines pageSize s a) {o : PageOp} (hfits : a.Fits pageSize o) :
    ∃ s', s.step o = .ok (a.fetched o, s') ∧ Refines pageSize s' (a.next pageSize o) ∧ Does s s' a o := by
  cases o with
  | fetchPage p => exact h.fetchPage p
  | writePage p data => exact h.writePage hfits
  | flushPage p => exact ⟨(s.flushPage p).2, rfl, h.keep (h.sound.flushPage p), h.sound.flushPage p⟩
  | flushAll => exact ⟨s.flushAll, rfl, h.keep h.sound.flushAll, h.sound.flushAll⟩
  | evictFile fileId => exact ⟨s.evictFile fileId, rfl, h.evictFile fileId, h.sound.evictFile fileId⟩

end Refinement

/-! ### Runs -/

section Runs

open Run

variable {pageSize : ℕ} {s s' : Backed} {a : Pages} {p : PageId}

/-- What is fetched without a cache. -/
def Pages.fetchedBy (pageSize : ℕ) : List PageOp → Pages → List Fetched
  | [], _ => []
  | o :: os, a => a.fetched o ++ fetchedBy pageSize os (a.next pageSize o)

theorem Backed.steps_cons (o : PageOp) (os : List PageOp) (s : Backed) : Backed.steps (o :: os) s = (do
    let r ← s.step o
    let rest ← Backed.steps os r.2
    .ok (r.1 ++ rest.1, rest.2)) := rfl

theorem Backed.steps_append : ∀ (os os' : List PageOp) (s : Backed), Backed.steps (os ++ os') s = (do
    let r ← Backed.steps os s
    let rest ← Backed.steps os' r.2
    .ok (r.1 ++ rest.1, rest.2))
  | [], os', s => by
    show Backed.steps os' s = Backed.steps os' s >>= fun rest => .ok (rest.1, rest.2)
    cases Backed.steps os' s <;> rfl
  | o :: os, os', s => by
    rw [List.cons_append, Backed.steps_cons, Backed.steps_cons]
    cases s.step o with
    | error e => rfl
    | ok r =>
      rw [Checked.ok_bind, Checked.ok_bind, Backed.steps_append os os' r.2]
      cases Backed.steps os r.2 with
      | error e => rfl
      | ok q =>
        rw [Checked.ok_bind, Checked.ok_bind, Checked.ok_bind]
        dsimp only
        cases Backed.steps os' q.2 with
        | error e => rfl
        | ok t =>
          rw [Checked.ok_bind, Checked.ok_bind, Checked.ok_bind, List.append_assoc]

/-- **A run in which all writes fit gives what the pages give.** What else holds of the
cache may be carried along. -/
theorem Refines.steps {J : ℕ → Backed → Pages → Prop}
    (hJ : ∀ n s s' a o, J n s a → Refines pageSize s' (Pages.next pageSize a o) → Does s s' a o →
      J (n + 1) s' (Pages.next pageSize a o)) : ∀ (os : List PageOp) (n : ℕ) {s : Backed} {a : Pages},
    Refines pageSize s a → J n s a → Along (Pages.next pageSize) (Pages.Fits pageSize) a os →
      ∃ s', Backed.steps os s = .ok (Pages.fetchedBy pageSize os a, s') ∧
        Refines pageSize s' (run (Pages.next pageSize) a os) ∧ J (n + os.length) s' (run (Pages.next pageSize) a os)
  | [], _, s, _, h, hj, _ => ⟨s, rfl, h, hj⟩
  | o :: os, n, s, a, h, hj, ⟨hfits, hrest⟩ => by
    obtain ⟨s₁, hstep, h₁, hdoes⟩ := h.step hfits
    obtain ⟨s', hsteps, h', hj'⟩ := Refines.steps hJ os (n + 1) h₁ (hJ n s s₁ a o hj h₁ hdoes) hrest
    refine ⟨s', ?_, h', ?_⟩
    · rw [Backed.steps_cons, hstep, Checked.ok_bind, hsteps, Checked.ok_bind]
      rfl
    · rw [List.length_cons, ← Nat.add_assoc, Nat.add_right_comm]
      exact hj'

theorem refines_new {n : ℕ} (hn : 0 < n) (disk : PageId → List UInt8) :
    Refines pageSize ⟨.new n pageSize true, disk⟩ (.start disk) := by
  have hempty : ∀ i page, ¬ InSlot ⟨.new n pageSize true, disk⟩ i page := by
    intro i page h
    have hmem := List.eq_of_mem_replicate (List.mem_of_getElem? h)
    cases hmem
  have hsound : Sound ⟨.new n pageSize true, disk⟩ :=
    ⟨List.length_replicate, hn, rfl, fun p i h => (by cases h), fun i page h => absurd h (hempty i page),
      fun i page h => absurd h (hempty i page)⟩
  exact ⟨hsound, rfl, fun _ => rfl, fun p hp => absurd rfl hp, fun p hp => (by cases hp), fun p hp => (by cases hp)⟩

/-! ### A cache of one page, and one of enough -/

/-- A cache of one page has no page but the one used last. -/
def Lone (s : Backed) (a : Pages) : Prop := s.cache.capacityPages = 1 ∧ ∀ p, pageAt s p ≠ none → a.last = some p

theorem Sound.one_page (hs : Sound s) (hone : s.cache.capacityPages = 1) {q : PageId} (hp : pageAt s p ≠ none)
    (hq : pageAt s q ≠ none) : p = q := by
  have hslot : ∀ p, pageAt s p ≠ none → ∃ page, InSlot s 0 page ∧ page.pageId = p := by
    intro p hp
    cases hl : s.cache.pageToSlot.lookup p with
    | none => exact absurd (pageAt_of_lookup_none hl) hp
    | some i =>
      obtain ⟨page, hi, hid, -⟩ := hs.of_lookup hl
      have hlt := hi.lt
      rw [hs.length, hone] at hlt
      obtain rfl := Nat.lt_one_iff.mp hlt
      exact ⟨page, hi, hid⟩
  obtain ⟨page, hi, rfl⟩ := hslot p hp
  obtain ⟨other, hj, rfl⟩ := hslot q hq
  rw [hi.unique hj]

theorem Lone.uses {data : List UInt8} (hl : Lone s a) (h : Refines pageSize s' (a.used p data)) (hu : Uses s s' p) :
    Lone s' (a.used p data) := by
  have hone := hu.capacity.trans hl.1
  exact ⟨hone, fun q hq => congrArg some (h.sound.one_page hone hu.here hq)⟩

theorem Lone.keeps (hl : Lone s a) (hk : Keeps (fun _ => True) s s') : Lone s' a :=
  ⟨hk.capacity.trans hl.1, fun p hp => hl.2 p fun hnone => hp (hk.gone p hnone)⟩

theorem Lone.step {o : PageOp} (hl : Lone s a) (h : Refines pageSize s' (a.next pageSize o)) (hd : Does s s' a o) :
    Lone s' (a.next pageSize o) := by
  cases o with
  | fetchPage p =>
    unfold Does at hd
    unfold Pages.next at h ⊢
    dsimp only at h hd ⊢
    by_cases hempty : a.content p = []
    · rw [if_pos hempty] at hd ⊢
      exact hl.keeps hd
    · rw [if_neg hempty] at h hd ⊢
      exact hl.uses h hd
  | writePage p data => exact hl.uses h hd
  | flushPage p => exact hl.keeps hd
  | flushAll => exact hl.keeps hd
  | evictFile fileId =>
    obtain ⟨hk, hgone⟩ := hd
    refine ⟨hk.capacity.trans hl.1, fun p hp => ?_⟩
    have hfile : p.fileId ≠ fileId := fun heq => hp (hgone p heq)
    exact Option.filter_eq_some_iff.mpr ⟨hl.2 p fun hnone => hp (hk.gone p hnone), decide_eq_true hfile⟩

/-- After `n` operations the slots from the `n`th on are empty, and until there are none,
no page that was used has left. -/
structure Ample (n : ℕ) (s : Backed) (a : Pages) : Prop where
  empty : ∀ j, n ≤ j → j < s.cache.capacityPages → s.cache.slots[j]? = some none
  all : n ≤ s.cache.capacityPages → ∀ p, a.held p = true → pageAt s p ≠ none

theorem Ample.uses {n : ℕ} {data : List UInt8} (hm : Ample n s a) (hu : Uses s s' p) :
    Ample (n + 1) s' (a.used p data) := by
  refine ⟨fun j hj hlt => ?_, fun hn q hq hnone => ?_⟩
  · rw [hu.capacity] at hlt
    exact (hu.roomy n (hm.empty n le_rfl (by omega))).2 j hj (hm.empty j (by omega) hlt)
  · rw [hu.capacity] at hn
    have hgone := (hu.roomy n (hm.empty n le_rfl hn)).1 q hnone
    have hne : q ≠ p := by
      rintro rfl
      exact hu.here hnone
    rw [a.used_held_of_ne hne] at hq
    exact hm.all (by omega) q hq hgone

theorem Ample.keeps {n : ℕ} (hm : Ample n s a) (hk : Keeps (fun _ => True) s s') : Ample (n + 1) s' a := by
  refine ⟨fun j hj hlt => ?_, fun hn q hq hnone => ?_⟩
  · rw [hk.capacity] at hlt
    exact hk.vacant j (hm.empty j (by omega) hlt)
  · rw [hk.capacity] at hn
    exact hm.all (by omega) q hq (hk.stays q trivial hnone)

theorem Ample.step {n : ℕ} {o : PageOp} (hm : Ample n s a) (hd : Does s s' a o) :
    Ample (n + 1) s' (a.next pageSize o) := by
  cases o with
  | fetchPage p =>
    unfold Does at hd
    unfold Pages.next
    dsimp only at hd ⊢
    by_cases hempty : a.content p = []
    · rw [if_pos hempty] at hd ⊢
      exact hm.keeps hd
    · rw [if_neg hempty] at hd ⊢
      exact hm.uses hd
  | writePage p data => exact hm.uses hd
  | flushPage p => exact hm.keeps hd
  | flushAll => exact hm.keeps hd
  | evictFile fileId =>
    obtain ⟨hk, -⟩ := hd
    refine ⟨fun j hj hlt => ?_, fun hn q hq hnone => ?_⟩
    · rw [hk.capacity] at hlt
      exact hk.vacant j (hm.empty j (by omega) hlt)
    · rw [hk.capacity] at hn
      obtain ⟨hheld, hfile⟩ := Bool.and_eq_true_iff.mp hq
      exact hm.all (by omega) q hheld (hk.stays q (of_decide_eq_true hfile) hnone)

theorem fetched_eq {n : ℕ} (hn : 0 < n) (disk : PageId → List UInt8) {os : List PageOp}
    (h : Along (Pages.next pageSize) (Pages.Fits pageSize) (.start disk) os) :
    fetched n pageSize disk os = .ok (Pages.fetchedBy pageSize os (.start disk)) := by
  obtain ⟨s', hsteps, -, -⟩ := Refines.steps (J := fun _ _ _ => True) (fun _ _ _ _ _ _ _ _ => trivial) os 0
    (refines_new hn disk) trivial h
  unfold fetched
  rw [hsteps, Checked.ok_bind]

/-- A page that has been written is fetched. -/
theorem fetched_written {n : ℕ} {disk : PageId → List UInt8} {os : List PageOp} {xs : List Fetched}
    {data : List UInt8} {page : CachedPage}
    (hos : Backed.steps os ⟨.new n pageSize true, disk⟩ = .ok (xs, s)) (hwrite : s.writePage p data = .ok s')
    (hs : Sound s') (hp : pageAt s' p = some page) :
    fetched n pageSize disk (os ++ [.writePage p data] ++ [.fetchPage p]) = .ok (xs ++ [.ok page.data]) := by
  obtain ⟨s'', hfetch, -⟩ : ∃ s'', _ ∧ Keeps (fun _ => True) s' s'' := hs.fetchPage_hit hp
  have hstep : s.step (.writePage p data) = .ok ([], s') := by
    unfold Backed.step
    dsimp only
    rw [hwrite, Checked.ok_bind]
  have hlast : s'.step (.fetchPage p) = .ok ([.ok page.data], s'') := by
    unfold Backed.step
    dsimp only
    rw [hfetch, Checked.ok_bind]
  unfold fetched
  rw [List.append_assoc, Backed.steps_append, hos, Checked.ok_bind, List.singleton_append, Backed.steps_cons, hstep,
    Checked.ok_bind, Backed.steps_cons, hlast, Checked.ok_bind]
  rfl

/-- If a write does not fit, a cache of one page or one of enough shows it. -/
theorem writable_of_transparent (hsize : 0 < pageSize) {disk : PageId → List UInt8} {os : List PageOp}
    (hos : Along (Pages.next pageSize) (Pages.Fits pageSize) (.start disk) os) {data : List UInt8}
    (ht : Transparent pageSize disk (os ++ [.writePage p data] ++ [.fetchPage p])) :
    (run (Pages.next pageSize) (.start disk) os).Writable pageSize p data := by
  obtain ⟨s₁, hsteps₁, h₁, hlone⟩ := Refines.steps (J := fun _ => Lone) (fun _ _ _ _ _ hl h hd => hl.step h hd) os 0
    (refines_new Nat.one_pos disk) ⟨rfl, fun p hp => absurd rfl hp⟩ hos
  obtain ⟨s₂, hsteps₂, h₂, hample⟩ := Refines.steps
    (J := fun n s a => s.cache.capacityPages = os.length + 1 ∧ Ample n s a)
    (fun _ _ _ _ _ hm _ hd => ⟨hd.capacity.trans hm.1, hm.2.step hd⟩) os 0
    (refines_new (Nat.succ_pos os.length) disk)
    ⟨rfl, fun j _ hlt => List.getElem?_replicate_of_lt hlt, fun _ p hp => by cases hp⟩ hos
  generalize run (Pages.next pageSize) (.start disk) os = a at *
  unfold Pages.Writable
  by_cases hheld : a.held p = true
  swap
  · rw [if_neg hheld]
    exact hsize
  rw [if_pos hheld]
  obtain ⟨hcap, hample⟩ := hample
  obtain ⟨page, hp₂⟩ := Option.ne_none_iff_exists'.mp (hample.all (by omega) p hheld)
  have hdata : a.content p = page.data := (h₂.content p).symm.trans (content_of_some hp₂)
  obtain ⟨s', hwrite, hb, -⟩ := h₂.sound.writePage_hit hp₂ data
  rw [h₂.pageSize, ← hdata] at hwrite hb
  -- a cache of enough has the page, and must not write past its end
  have hle : (data.take pageSize).length ≤ (a.content p).length := by
    by_contra hlt
    have hsafe := (ht (os.length + 1) 1 (Nat.succ_pos _) Nat.one_pos).2
    rw [Checked.within_of_lt (by omega)] at hwrite
    unfold fetched at hsafe
    rw [List.append_assoc, Backed.steps_append, hsteps₂, Checked.ok_bind, List.singleton_append, Backed.steps_cons,
      show s₂.step (.writePage p data) = .error .outside by unfold Backed.step; dsimp only; rw [hwrite]; rfl] at hsafe
    exact hsafe
  refine ⟨hle, ?_⟩
  by_cases hlast : a.last = some p
  · exact .inl hlast
  -- a cache of one page does not have it, and starts it as zeros
  have hp₁ : pageAt s₁ p = none := by
    by_contra hp
    exact hlast (hlone.2 p hp)
  have hwrite₁ := h₁.sound.writePage_miss hp₁ data
  rw [h₁.pageSize] at hwrite₁
  have hmiss := h₁.sound.miss
  have hb₁ := placed ⟨p, overwrite (List.replicate pageSize 0) (data.take pageSize), true, true⟩ (hmiss.gone p hp₁)
    (fun hd => by cases hd) hmiss.sound.findVictim
  have hfetched₁ := fetched_written hsteps₁ hwrite₁ hb₁.sound hb₁.here
  rw [Checked.within_of_le (by omega), Checked.ok_bind] at hwrite
  have hfetched₂ := fetched_written hsteps₂ hwrite hb.sound hb.here
  have hsame := (ht 1 (os.length + 1) Nat.one_pos (Nat.succ_pos _)).1
  rw [hfetched₁, hfetched₂] at hsame
  have hbytes := List.singleton_injective (List.append_cancel_left (Except.ok.inj hsame))
  have htail := List.append_cancel_left (Except.ok.inj hbytes)
  rw [List.drop_replicate] at htail
  exact .inr htail.symm

end Runs

/-- **The cache does not show as long as all writes fit; and as soon as one does not, a
fetch shows it, or the write goes past the end of the page.** -/
theorem transparent_iff (pageSize : ℕ) (disk : PageId → List UInt8) (ops : List PageOp) :
    (Run.Along (Pages.next pageSize) (Pages.Fits pageSize) (.start disk) ops → Transparent pageSize disk ops) ∧
    (0 < pageSize → ((∀ os, os <+: ops → ∀ p, Transparent pageSize disk (os ++ [.fetchPage p])) ↔
      Run.Along (Pages.next pageSize) (Pages.Fits pageSize) (.start disk) ops)) := by
  have hforward : ∀ {ops}, Run.Along (Pages.next pageSize) (Pages.Fits pageSize) (.start disk) ops →
      Transparent pageSize disk ops := by
    intro ops h n m hn hm
    rw [fetched_eq hn disk h, fetched_eq hm disk h]
    exact ⟨rfl, trivial⟩
  refine ⟨hforward, fun hsize => ⟨fun h => ?_, fun h os hos p => hforward ?_⟩⟩
  · induction ops using List.reverseRecOn with
    | nil => trivial
    | append_singleton os o ih =>
      have hbefore := ih fun os' hpre p => h os' (hpre.trans (List.prefix_append os [o])) p
      refine Run.along_concat.mpr ⟨hbefore, ?_⟩
      cases o with
      | writePage p data => exact writable_of_transparent hsize hbefore (h _ (List.prefix_refl _) p)
      | fetchPage p => trivial
      | flushPage p => trivial
      | flushAll => trivial
      | evictFile fileId => trivial
  · obtain ⟨rest, rfl⟩ := hos
    exact Run.along_concat.mpr ⟨(Run.along_append.mp h).1, trivial⟩

theorem transparent_last : Transparent 2 (fun _ => [7, 7])
    [.fetchPage ⟨0, 0⟩, .writePage ⟨0, 0⟩ [9], .fetchPage ⟨0, 1⟩, .writePage ⟨0, 0⟩ [8, 8], .fetchPage ⟨0, 0⟩] :=
  (transparent_iff 2 (fun _ => [7, 7]) [.fetchPage ⟨0, 0⟩, .writePage ⟨0, 0⟩ [9], .fetchPage ⟨0, 1⟩,
    .writePage ⟨0, 0⟩ [8, 8], .fetchPage ⟨0, 0⟩]).1 (by decide)

/-- Two pages, of which one leaves a cache of one page for the other: it is written, and
then it has zeros where a larger cache has what was stored. A page that is loaded
with one byte is written past its end. -/
theorem not_transparent :
    ¬ Transparent 2 (fun _ => [7, 7]) [.fetchPage ⟨0, 0⟩, .fetchPage ⟨0, 1⟩, .writePage ⟨0, 0⟩ [9], .fetchPage ⟨0, 0⟩] ∧
    ¬ Transparent 2 (fun _ => [7]) [.fetchPage ⟨0, 0⟩, .writePage ⟨0, 0⟩ [9, 9]] := by
  refine ⟨fun h => ?_, fun h => ?_⟩
  · exact absurd (h 1 2 (by decide) (by decide)).1 (by decide)
  · exact absurd (h 1 1 (by decide) (by decide)).2 (by decide)

end Storage
end Amind
