/-
# Reading a byte stream from the front

A `Reader` takes what it needs from the front of a byte string, and fails if
there is not enough. `Reads r bs a` says that `r` reads `a` from `bs` whatever
follows, so that readers of the parts of a format compose to one of the whole
(`Reads.bind`, `Reads.times`).

`upTo r n` reads as often as it can, at most `n` times; `Exact` says that what `r`
reads is always one encoding. `all r` reads to the end, as a log is replayed: the
records in front are delivered first (`Advances.all_append`), and a stream is
delivered as given records if and only if their encodings are its front and the
reader stops behind them (`Advances.all_eq_iff`).
-/
import Amind.Lib.LittleEndian

namespace Amind
namespace ByteReader

open LittleEndian

abbrev Reader (α : Type) := StateT (List UInt8) Option α

/-- The next `n` bytes. -/
def bytes (n : ℕ) : Reader (List UInt8) := fun bs => if bs.length < n then none else some (bs.take n, bs.drop n)

/-- The number in the next `w` bytes, least first. -/
def number (w : ℕ) : Reader ℕ := ofLE <$> bytes w

/-- Read `n` times. -/
def times {α : Type} (r : Reader α) : ℕ → Reader (List α)
  | 0 => pure []
  | n + 1 => do
    let a ← r
    let as ← times r n
    pure (a :: as)

/-- Read at most `n` times, until the reader fails. -/
def upTo {α : Type} (r : Reader α) : ℕ → List UInt8 → List α
  | 0, _ => []
  | n + 1, bs =>
    match r bs with
    | none => []
    | some (a, rest) => a :: upTo r n rest

/-- The reader reads `a` from `bs` and leaves what follows. -/
def Reads {α : Type} (r : Reader α) (bs : List UInt8) (a : α) : Prop := ∀ rest, r (bs ++ rest) = some (a, rest)

variable {α β : Type} {r : Reader α} {bs bs' : List UInt8} {a : α} {b : β}

theorem Reads.pure (a : α) : Reads (Pure.pure a) [] a := fun _ => rfl

theorem Reads.bind {f : α → Reader β} (h : Reads r bs a) (h' : Reads (f a) bs' b) : Reads (r >>= f) (bs ++ bs') b := by
  intro rest
  show (r (bs ++ bs' ++ rest)).bind (fun p => f p.1 p.2) = some (b, rest)
  rw [List.append_assoc, h, Option.bind_some, h']

theorem Reads.map {f : α → β} (h : Reads r bs a) : Reads (f <$> r) bs (f a) := by
  intro rest
  show (r (bs ++ rest)).bind (fun p => some (f p.1, p.2)) = _
  rw [h]
  rfl

theorem reads_bytes {n : ℕ} (h : bs.length = n) : Reads (bytes n) bs bs := by
  intro rest
  subst h
  simp [bytes]

theorem reads_number_mod (w n : ℕ) : Reads (number w) (toLE w n) (n % 256 ^ w) := by
  have hr : Reads (number w) (toLE w n) (ofLE (toLE w n)) := (reads_bytes (length_toLE w n)).map
  rwa [ofLE_toLE] at hr

theorem reads_number {w n : ℕ} (h : n < 256 ^ w) : Reads (number w) (toLE w n) n := by
  have hr := reads_number_mod w n
  rwa [Nat.mod_eq_of_lt h] at hr

theorem bytes_eq_some {n : ℕ} {v rest : List UInt8} (h : bytes n bs = some (v, rest)) :
    v.length = n ∧ bs = v ++ rest := by
  unfold bytes at h
  split at h
  · cases h
  · rename_i hlen
    obtain ⟨rfl, rfl⟩ := Prod.mk.inj (Option.some.inj h)
    exact ⟨by rw [List.length_take]; omega, (List.take_append_drop n bs).symm⟩

/-- A number is read from its own bytes only. -/
theorem number_eq_some {w n : ℕ} {rest : List UInt8} (h : number w bs = some (n, rest)) :
    n < 256 ^ w ∧ bs = toLE w n ++ rest := by
  obtain ⟨⟨v, rest'⟩, hv, heq⟩ := Option.bind_eq_some_iff.mp h
  obtain ⟨rfl, rfl⟩ := Prod.mk.inj (Option.some.inj heq)
  obtain ⟨rfl, rfl⟩ := bytes_eq_some hv
  exact ⟨ofLE_lt v, by rw [toLE_ofLE]⟩

/-- As many reads as there are values, of their encodings one after the other. -/
theorem Reads.times {enc : α → List UInt8} : ∀ {as : List α}, (∀ a ∈ as, Reads r (enc a) a) →
    Reads (ByteReader.times r as.length) (as.flatMap enc) as
  | [], _ => Reads.pure []
  | a :: as, h => by
    have htail : Reads (ByteReader.times r as.length) (as.flatMap enc) as :=
      Reads.times fun b hb => h b (List.mem_cons_of_mem _ hb)
    have hcons : Reads (ByteReader.times r as.length >>= fun as => Pure.pure (a :: as)) (as.flatMap enc) (a :: as) :=
      List.append_nil (as.flatMap enc) ▸ htail.bind (Reads.pure (a :: as))
    exact Reads.bind (f := fun a => ByteReader.times r as.length >>= fun as => Pure.pure (a :: as))
      (h a List.mem_cons_self) hcons

/-- What is encoded in front is read, and the reading goes on behind it. -/
theorem upTo_append {enc : α → List UInt8} {rest : List UInt8} {n : ℕ} : ∀ {as : List α},
    (∀ a ∈ as, Reads r (enc a) a) → upTo r (as.length + n) (as.flatMap enc ++ rest) = as ++ upTo r n rest
  | [], _ => by simp
  | a :: as, h => by
    have htail : upTo r (as.length + n) (as.flatMap enc ++ rest) = as ++ upTo r n rest :=
      upTo_append fun b hb => h b (List.mem_cons_of_mem _ hb)
    have hlen : (a :: as).length + n = as.length + n + 1 := by simp only [List.length_cons]; omega
    rw [hlen, List.flatMap_cons, List.append_assoc, upTo, h a List.mem_cons_self, List.cons_append]
    exact congrArg _ htail

/-- The reader takes only encodings. -/
def Exact (r : Reader α) (enc : α → List UInt8) : Prop := ∀ bs a rest, r bs = some (a, rest) → bs = enc a ++ rest

/-- Values read a given number of times were encoded one after the other. -/
theorem Exact.times {enc : α → List UInt8} (h : Exact r enc) : ∀ {n : ℕ} {bs rest : List UInt8} {as : List α},
    ByteReader.times r n bs = some (as, rest) → as.length = n ∧ bs = as.flatMap enc ++ rest
  | 0, bs, rest, as, hread => by
    obtain ⟨rfl, rfl⟩ := Prod.mk.inj (Option.some.inj hread)
    exact ⟨rfl, rfl⟩
  | n + 1, bs, rest, as, hread => by
    obtain ⟨⟨a, bs1⟩, ha, hmore⟩ := Option.bind_eq_some_iff.mp hread
    obtain ⟨⟨tail, bs2⟩, htail, hpure⟩ := Option.bind_eq_some_iff.mp hmore
    obtain ⟨rfl, rfl⟩ := Prod.mk.inj (Option.some.inj hpure)
    obtain ⟨hlen, hbs⟩ := Exact.times h (n := n) htail
    have hfront : bs = enc a ++ bs1 := h bs a bs1 ha
    exact ⟨by rw [List.length_cons, hlen], by rw [hfront, hbs, List.flatMap_cons, List.append_assoc]⟩

/-! ### Logs -/

/-- What the reader finds in the whole stream, one after the other. -/
def all (r : Reader α) (bs : List UInt8) : List α := upTo r bs.length bs

/-- The reader takes at least a byte. -/
def Advances (r : Reader α) : Prop := ∀ bs a rest, r bs = some (a, rest) → rest.length < bs.length

theorem Advances.upTo_eq (h : Advances r) : ∀ {n m : ℕ} {bs : List UInt8}, bs.length ≤ n → bs.length ≤ m →
    ByteReader.upTo r n bs = ByteReader.upTo r m bs := by
  -- induction on the stream: with no byte left the reader has stopped on both sides
  intro n m bs
  induction hl : bs.length using Nat.strong_induction_on generalizing n m bs with
  | h l ih =>
    intro hn hm
    cases hr : r bs with
    | none => cases n <;> cases m <;> simp [ByteReader.upTo, hr]
    | some p =>
      obtain ⟨a, rest⟩ := p
      have hlt := h bs a rest hr
      obtain ⟨n, rfl⟩ := Nat.exists_eq_add_one.mpr (show 0 < n by omega)
      obtain ⟨m, rfl⟩ := Nat.exists_eq_add_one.mpr (show 0 < m by omega)
      simp only [ByteReader.upTo, hr]
      have htail : ByteReader.upTo r n rest = ByteReader.upTo r m rest :=
        ih rest.length (by omega) rfl (by omega) (by omega)
      rw [htail]

theorem all_of_none (hn : r bs = none) : all r bs = [] := by
  unfold all
  cases bs.length <;> simp [ByteReader.upTo, hn]

theorem Advances.all_of_some (h : Advances r) {rest : List UInt8} (hr : r bs = some (a, rest)) :
    all r bs = a :: all r rest := by
  have hlt := h bs a rest hr
  obtain ⟨n, hn⟩ := Nat.exists_eq_add_one.mpr (show 0 < bs.length by omega)
  rw [all, hn, ByteReader.upTo, hr]
  exact congrArg _ (h.upTo_eq (by omega) (Nat.le_refl _))

/-- What is encoded in front is delivered first. -/
theorem Advances.all_append (h : Advances r) {enc : α → List UInt8} (rest : List UInt8) : ∀ {as : List α},
    (∀ a ∈ as, Reads r (enc a) a) → all r (as.flatMap enc ++ rest) = as ++ all r rest
  | [], _ => rfl
  | a :: as, has => by
    have hread : r ((a :: as).flatMap enc ++ rest) = some (a, as.flatMap enc ++ rest) := by
      rw [List.flatMap_cons, List.append_assoc]
      exact has a List.mem_cons_self _
    rw [h.all_of_some hread, h.all_append rest fun b hb => has b (List.mem_cons_of_mem _ hb), List.cons_append]

/-- A stream is delivered as `as` if and only if it starts with their encodings
and the reader stops behind them. -/
theorem Advances.all_eq_iff (h : Advances r) {enc : α → List UInt8} (he : Exact r enc) {as : List α}
    (has : ∀ a ∈ as, Reads r (enc a) a) : all r bs = as ↔ ∃ rest, bs = as.flatMap enc ++ rest ∧ r rest = none := by
  constructor
  · induction as generalizing bs with
    | nil =>
      intro hnil
      refine ⟨bs, rfl, ?_⟩
      cases hr : r bs with
      | none => rfl
      | some p =>
        rw [h.all_of_some (a := p.1) hr] at hnil
        cases hnil
    | cons a as ih =>
      intro hcons
      cases hr : r bs with
      | none =>
        rw [all_of_none hr] at hcons
        cases hcons
      | some p =>
        rw [h.all_of_some (a := p.1) hr] at hcons
        obtain ⟨rfl, htail⟩ := List.cons.inj hcons
        obtain ⟨rest, hrest, hstop⟩ := ih (fun b hb => has b (List.mem_cons_of_mem _ hb)) htail
        refine ⟨rest, ?_, hstop⟩
        rw [he bs p.1 p.2 hr, hrest, List.flatMap_cons, List.append_assoc]
  · rintro ⟨rest, rfl, hstop⟩
    rw [h.all_append rest has, all_of_none hstop, List.append_nil]

/-- A reader of frames: it reads the encodings of the values that are `Ok`, and
nothing else. -/
structure Frames (r : Reader α) (enc : α → List UInt8) (Ok : α → Prop) : Prop where
  reads : ∀ {a}, Ok a → Reads r (enc a) a
  ok : ∀ {bs a rest}, r bs = some (a, rest) → Ok a ∧ bs = enc a ++ rest
  pos : ∀ a, 0 < (enc a).length

namespace Frames

variable {enc : α → List UInt8} {Ok : α → Prop}

theorem exact (h : Frames r enc Ok) : Exact r enc := fun _ _ _ hr => (h.ok hr).2

theorem advances (h : Frames r enc Ok) : Advances r := by
  intro bs a rest hr
  have hlen := congrArg List.length (h.ok hr).2
  have hpos := h.pos a
  rw [List.length_append] at hlen
  omega

/-- A frame that is cut is not read. -/
theorem read_take (h : Frames r enc Ok) (ha : Ok a) {k : ℕ} (hk : k < (enc a).length) : r ((enc a).take k) = none := by
  cases hr : r ((enc a).take k) with
  | none => rfl
  | some p =>
    -- if one were read, the whole frame would leave the bytes that were cut off
    obtain ⟨hb, htake⟩ := h.ok (a := p.1) hr
    have hmore : r (enc a) = some (p.1, p.2 ++ (enc a).drop k) := by
      have := h.reads hb (p.2 ++ (enc a).drop k)
      rwa [← List.append_assoc, ← htake, List.take_append_drop] at this
    have hwhole : r (enc a) = some (a, []) := by
      have := h.reads ha []
      rwa [List.append_nil] at this
    rw [hwhole] at hmore
    have hnil := (Prod.mk.inj (Option.some.inj hmore)).2
    have hdrop : (enc a).drop k = [] := (List.append_eq_nil_iff.mp hnil.symm).2
    rw [List.drop_eq_nil_iff] at hdrop
    omega

theorem read_nil (h : Frames r enc Ok) : r [] = none := by
  cases hr : r [] with
  | none => rfl
  | some p => exact absurd (h.advances [] p.1 p.2 hr) (Nat.not_lt_zero _)

end Frames

/-- `p` is the longest prefix of `as` whose encodings take at most `n` bytes. -/
structure LongestWithin (enc : α → List UInt8) (as : List α) (n : ℕ) (p : List α) : Prop where
  isPrefix : p <+: as
  within : (p.flatMap enc).length ≤ n
  longest : ∀ q, q <+: as → (q.flatMap enc).length ≤ n → q <+: p

/-- Of frames that are cut somewhere the whole ones are delivered. -/
theorem Frames.all_take {enc : α → List UInt8} {Ok : α → Prop} (h : Frames r enc Ok) :
    ∀ {as : List α} (n : ℕ), (∀ a ∈ as, Ok a) → LongestWithin enc as n (all r ((as.flatMap enc).take n))
  | [], n, _ => by
    rw [List.flatMap_nil, List.take_nil, all_of_none h.read_nil]
    exact ⟨List.prefix_refl _, by simp, fun q hq _ => hq⟩
  | a :: as, n, has => by
    obtain ⟨ha, has⟩ := List.forall_mem_cons.mp has
    rw [List.flatMap_cons]
    by_cases hn : n < (enc a).length
    · -- already the first is cut
      rw [List.take_append_of_le_length (Nat.le_of_lt hn), all_of_none (h.read_take ha hn)]
      refine ⟨List.nil_prefix, by simp, fun q hq hlen => ?_⟩
      cases q with
      | nil => exact List.prefix_refl _
      | cons b q =>
        obtain ⟨rfl, -⟩ := List.cons_prefix_cons.mp hq
        rw [List.flatMap_cons, List.length_append] at hlen
        omega
    · obtain ⟨k, rfl⟩ : ∃ k, n = (enc a).length + k := ⟨n - (enc a).length, by omega⟩
      have ih := h.all_take k has
      rw [List.take_length_add_append, h.advances.all_of_some (h.reads ha _)]
      refine ⟨List.cons_prefix_cons.mpr ⟨rfl, ih.isPrefix⟩, ?_, fun q hq hlen => ?_⟩
      · have := ih.within
        rw [List.flatMap_cons, List.length_append]
        omega
      · cases q with
        | nil => exact List.nil_prefix
        | cons b q =>
          obtain ⟨rfl, hq'⟩ := List.cons_prefix_cons.mp hq
          rw [List.flatMap_cons, List.length_append] at hlen
          exact List.cons_prefix_cons.mpr ⟨rfl, ih.longest q hq' (by omega)⟩

end ByteReader
end Amind
