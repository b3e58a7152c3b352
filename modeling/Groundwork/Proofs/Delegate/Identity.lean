import Groundwork.Proofs.Delegate.Interleaving

/-!
# `Proofs.Delegate.Identity` — when two handlers are equal

Two handlers of functions are compared by their functions, any other two by their cells. On handlers
put together at will that is no equivalence: a handler of a closure could share its cell with the
handlers of two functions. It becomes one by the way handlers come about. Each is made of a closure
or of a function, and then lives in a cell of its own, or it is a copy, and then it shares cell and
function with what it is a copy of. So every cell has one *origin*, and handlers are equal just when
they have the same origin.

## Contents

* `Making`, `Origin`, `Workshop` — how handlers come about, and what each goes back to.
* `Workshop.Sound`, `sound_makeAll` — what holds of all handlers made so far.
* `Workshop.same_iff` — **equal handlers are those with one origin.**
* `Settled`, `Settled.same_iff` — **equal handlers are those that call the same.**
-/

namespace Groundwork

variable {φ F : Type}

/-! ## Making handlers -/

/-- How one more handler is made. -/
inductive Making (F : Type) where
  /-- Of a closure. -/
  | closure
  /-- Of a closure without argument. -/
  | nullary
  /-- Of a function. -/
  | function (f : F)
  /-- As a copy of the handler that was made at a place. -/
  | copy (source : Nat)
  deriving DecidableEq, Repr

/-- What a handler goes back to. -/
inductive Origin (F : Type) where
  /-- A function. -/
  | function (f : F)
  /-- The closure that was made into a handler at a place. -/
  | closure (place : Nat)
  deriving DecidableEq, Repr

/-- A handler that has been made, and what it goes back to. -/
structure Product (φ F : Type) where
  handler : Handler φ
  origin : Origin F
  deriving DecidableEq, Repr

/-- The handlers made so far, in order, and the cells that are left. -/
structure Workshop (φ F : Type) where
  supply : Supply
  products : List (Product φ F)
  deriving DecidableEq, Repr

namespace Workshop

/-- Nothing has been made. -/
def start : Workshop φ F := ⟨Supply.start, []⟩

/-- Adds a handler that has just been made. -/
def put (w : Workshop φ F) (made : Handler φ × Supply) (origin : Origin F) : Workshop φ F :=
  ⟨made.2, w.products ++ [⟨made.1, origin⟩]⟩

/-- Makes one more handler, where functions are known by their addresses. A copy of nothing is
nothing. -/
def make (address : F → φ) (w : Workshop φ F) : Making F → Workshop φ F
  | .closure => w.put w.supply.ofClosure (.closure w.products.length)
  | .nullary => w.put w.supply.ofNullary (.closure w.products.length)
  | .function f => w.put (w.supply.ofFunction (address f)) (.function f)
  | .copy source =>
    match w.products[source]? with
    | some product => w.put (product.handler.copy, w.supply) product.origin
    | none => w

/-- Makes handlers, one after the other. -/
def makeAll (address : F → φ) (makings : List (Making F)) : Workshop φ F :=
  makings.foldl (make address) start

/-- The handlers made so far. -/
def handlers (w : Workshop φ F) : List (Handler φ) := w.products.map (·.handler)

end Workshop

/-! ## What holds of the handlers made so far -/

/-- The function of a handler, as its origin has it. -/
def Origin.function? (address : F → φ) : Origin F → Option φ
  | .function f => some (address f)
  | .closure _ => none

/-- Cells and functions tell where handlers come from. -/
structure Workshop.Sound (address : F → φ) (w : Workshop φ F) : Prop where
  /-- The cells of handlers are taken. -/
  taken : ∀ p ∈ w.products, p.handler.cell < w.supply.taken
  /-- A handler has the function of its origin. -/
  function : ∀ p ∈ w.products, p.handler.function = p.origin.function? address
  /-- The closures come from places where something has been made. -/
  placed : ∀ p ∈ w.products, ∀ place, p.origin = .closure place → place < w.products.length
  /-- What lives in one cell has one origin. -/
  origin : ∀ p ∈ w.products, ∀ q ∈ w.products, p.handler.cell = q.handler.cell → p.origin = q.origin
  /-- What goes back to one closure lives in one cell. -/
  cell : ∀ p ∈ w.products, ∀ q ∈ w.products, ∀ place, p.origin = .closure place →
    q.origin = .closure place → p.handler.cell = q.handler.cell

namespace Workshop

variable {address : F → φ} {w : Workshop φ F}

theorem sound_start : (start : Workshop φ F).Sound address where
  taken := by simp [start]
  function := by simp [start]
  placed := by simp [start]
  origin := by simp [start]
  cell := by simp [start]

theorem mem_put {made : Handler φ × Supply} {origin : Origin F} {p : Product φ F} :
    p ∈ (w.put made origin).products ↔ p ∈ w.products ∨ p = ⟨made.1, origin⟩ := by
  simp [put]

/-- A new handler in a new cell, of a function or of a closure that no other handler has. -/
theorem Sound.put_new (sound : w.Sound address) {origin : Origin F} {handler : Handler φ}
    (cell : handler.cell = w.supply.taken)
    (function : handler.function = origin.function? address)
    (new : ∀ place, origin = .closure place → place = w.products.length) :
    (w.put (handler, ⟨w.supply.taken + 1⟩) origin).Sound address := by
  -- a new cell is none of those in use, and a new closure is none of those made
  have otherCell {p : Product φ F} (mem : p ∈ w.products) : p.handler.cell ≠ handler.cell := by
    have := sound.taken p mem
    omega
  have otherOrigin {p : Product φ F} (mem : p ∈ w.products) {place : Nat}
      (of : p.origin = .closure place) : origin ≠ .closure place := by
    intro eq
    have := sound.placed p mem place of
    have := new place eq
    omega
  have length : (w.put (handler, ⟨w.supply.taken + 1⟩) origin).products.length
      = w.products.length + 1 := by simp [put]
  constructor
  · intro p mem
    show p.handler.cell < w.supply.taken + 1
    rcases mem_put.1 mem with mem | rfl
    · have := sound.taken p mem
      omega
    · show handler.cell < _
      omega
  · intro p mem
    rcases mem_put.1 mem with mem | rfl
    · exact sound.function p mem
    · exact function
  · intro p mem place of
    rw [length]
    rcases mem_put.1 mem with mem | rfl
    · have := sound.placed p mem place of
      omega
    · have := new place of
      omega
  · intro p memP q memQ eq
    rcases mem_put.1 memP with memP | rfl <;> rcases mem_put.1 memQ with memQ | rfl
    · exact sound.origin p memP q memQ eq
    · exact absurd eq (otherCell memP)
    · exact absurd eq.symm (otherCell memQ)
    · rfl
  · intro p memP q memQ place ofP ofQ
    rcases mem_put.1 memP with memP | rfl <;> rcases mem_put.1 memQ with memQ | rfl
    · exact sound.cell p memP q memQ place ofP ofQ
    · exact absurd ofQ (otherOrigin memP ofP)
    · exact absurd ofP (otherOrigin memQ ofQ)
    · rfl

/-- A copy adds nothing that was not there: it has the cell, the function and the origin of what it
is a copy of. -/
theorem Sound.put_copy (sound : w.Sound address) {product : Product φ F}
    (mem : product ∈ w.products) :
    (w.put (product.handler.copy, w.supply) product.origin).Sound address := by
  -- what holds of all that were there holds of all that are there now
  have old {p : Product φ F}
      (mem' : p ∈ (w.put (product.handler.copy, w.supply) product.origin).products) :
      p ∈ w.products := by
    rcases mem_put.1 mem' with mem' | rfl
    · exact mem'
    · exact mem
  constructor
  · exact fun p mem => sound.taken p (old mem)
  · exact fun p mem => sound.function p (old mem)
  · intro p mem place of
    have := sound.placed p (old mem) place of
    simp only [put, List.length_append]
    omega
  · exact fun p memP q memQ => sound.origin p (old memP) q (old memQ)
  · exact fun p memP q memQ => sound.cell p (old memP) q (old memQ)

/-- Making one more handler. -/
theorem Sound.make (sound : w.Sound address) (making : Making F) :
    (w.make address making).Sound address := by
  cases making with
  | closure => exact sound.put_new rfl rfl fun place eq => (Origin.closure.inj eq).symm
  | nullary => exact sound.put_new rfl rfl fun place eq => (Origin.closure.inj eq).symm
  | function f => exact sound.put_new rfl rfl fun place eq => nomatch eq
  | copy source =>
    cases found : w.products[source]? with
    | some product =>
      simpa only [Workshop.make, found] using sound.put_copy (List.mem_of_getElem? found)
    | none => simpa only [Workshop.make, found] using sound

/-- Whatever has been made, cells and functions tell where it comes from. -/
theorem sound_makeAll (address : F → φ) (makings : List (Making F)) :
    (makeAll address makings).Sound address := by
  suffices run : ∀ w : Workshop φ F, w.Sound address →
      (makings.foldl (Workshop.make address) w).Sound address from run start sound_start
  induction makings with
  | nil => exact fun w sound => sound
  | cons making makings ih => exact fun w sound => ih _ (sound.make making)

/-- Handlers are equal just when they go back to the same function or to the same closure. -/
theorem Sound.same_iff [DecidableEq φ] (distinct : Function.Injective address)
    (sound : w.Sound address) {p q : Product φ F} (memP : p ∈ w.products) (memQ : q ∈ w.products) :
    p.handler.same q.handler = true ↔ p.origin = q.origin := by
  have functionP := sound.function p memP
  have functionQ := sound.function q memQ
  -- if not both are of functions, equal origins are one closure
  have byCell (closure : p.handler.function = none ∨ q.handler.function = none) :
      p.handler.cell = q.handler.cell ↔ p.origin = q.origin := by
    refine ⟨sound.origin p memP q memQ, fun eq => ?_⟩
    cases of : p.origin with
    | closure place => exact sound.cell p memP q memQ place of (eq ▸ of)
    | function f =>
      rw [functionP, functionQ, ← eq, of, Origin.function?] at closure
      simp at closure
  unfold Handler.same
  cases ofP : p.handler.function with
  | none => simpa [ofP] using byCell (.inl ofP)
  | some f =>
    cases ofQ : q.handler.function with
    | none => simpa [ofQ] using byCell (.inr ofQ)
    | some g =>
      rw [ofP] at functionP
      rw [ofQ] at functionQ
      cases originP : p.origin with
      | closure place => simp [originP, Origin.function?] at functionP
      | function f' =>
        cases originQ : q.origin with
        | closure place => simp [originQ, Origin.function?] at functionQ
        | function g' =>
          obtain rfl : f = address f' := by simpa [originP, Origin.function?] using functionP
          obtain rfl : g = address g' := by simpa [originQ, Origin.function?] using functionQ
          simp [distinct.eq_iff]

end Workshop

/-! ## Handlers that call the same -/

/-- Among these handlers, those that share a cell share their function. -/
def Settled (hs : List (Handler φ)) : Prop :=
  ∀ h ∈ hs, ∀ k ∈ hs, h.cell = k.cell → h.function = k.function

/-- Where cells are settled, handlers are equal just when they call the same function or closure. -/
theorem Settled.same_iff [DecidableEq φ] {hs : List (Handler φ)} (settled : Settled hs)
    {h k : Handler φ} (memH : h ∈ hs) (memK : k ∈ hs) :
    h.same k = true ↔ h.callable = k.callable := by
  have function := settled h memH k memK
  rcases h with ⟨cell, _ | f⟩ <;> rcases k with ⟨cell', _ | g⟩ <;>
    simp_all [Handler.same, Handler.callable]

/-- The cells of a workshop are settled. -/
theorem Workshop.Sound.settled {address : F → φ} {w : Workshop φ F} (sound : w.Sound address) :
    Settled w.handlers := by
  intro h memH k memK eq
  obtain ⟨p, memP, rfl⟩ := List.mem_map.1 memH
  obtain ⟨q, memQ, rfl⟩ := List.mem_map.1 memK
  rw [sound.function p memP, sound.function q memQ, sound.origin p memP q memQ eq]

end Groundwork
