import Groundwork.Proofs.Delegate.Interleaving

/-!
# `Proofs.Delegate.Exclusion` — changes under a lock

A client makes a change in four steps: it takes the lock of the delegate, copies the list of
handlers, changes the copy and stores it, and lets go of the lock. Steps of several clients come in
any order. If the lock excludes, then whoever has a copy is alone at it, the copy is what is stored,
and the change is made as if at once: the runs of some clients from their first step to their last
leave behind just what the schedules of their programs do. A lock of the kind that excludes nobody
gives no such thing, since another client may store between the copy and the store.

## Contents

* `Stage`, `Site`, `Site.Step`, `Site.Runs` — clients at work, and how a run goes on.
* `Site.Exclusive` — the invariant; `Site.Runs.follows` — **what a run keeps.**
* `leaves_iff` — **under a lock that excludes, runs are schedules.**
* `part_of_leaves` — **no client loses or doubles a change of another.**
-/

namespace Groundwork

open Schedule

variable {φ ι : Type}

/-! ## Clients at work -/

/-- How far a client is with a change. -/
inductive Stage (φ : Type) where
  /-- It is making none. -/
  | idle
  /-- It holds the lock. -/
  | holding
  /-- It has a copy of the delegate, of its own. -/
  | copied (copy : Delegate φ)
  /-- It has stored the changed copy and still holds the lock. -/
  | stored
  deriving DecidableEq, Repr

/-- A delegate with its lock, and its clients: how far each is, and what it has yet to do. The
change that a client is making stands in front of the others until it is stored. -/
structure Site (ι φ : Type) where
  delegate : Delegate φ
  lock : PolicyLock
  stage : ι → Stage φ
  todo : ι → List (Change φ)

namespace Site

/-- No client has begun. -/
def start (d : Delegate φ) (programs : ι → List (Change φ)) : Site ι φ :=
  ⟨d, .new d.policy, fun _ => .idle, programs⟩

/-- All clients are through with their programs. -/
def Finished (site : Site ι φ) : Prop := ∀ i, site.stage i = .idle ∧ site.todo i = []

variable [DecidableEq φ] [DecidableEq ι]

/-- One step of one client, with the change that is stored in it, if any. -/
inductive Step : Site ι φ → Schedule ι φ → Site ι φ → Prop where
  | enter {site : Site ι φ} {i : ι} {change : Change φ} {rest : List (Change φ)}
      {guard : LockGuard} {lock : PolicyLock} (idle : site.stage i = .idle)
      (next : site.todo i = change :: rest) (free : site.lock.acquire? = some (guard, lock)) :
      Step site [] { site with lock := lock, stage := Function.update site.stage i .holding }
  | copy {site : Site ι φ} {i : ι} (holding : site.stage i = .holding) :
      Step site [] { site with stage := Function.update site.stage i (.copied site.delegate) }
  | store {site : Site ι φ} {i : ι} {copy : Delegate φ} {change : Change φ}
      {rest : List (Change φ)} (copied : site.stage i = .copied copy)
      (next : site.todo i = change :: rest) :
      Step site [(i, change)]
        { site with
          delegate := copy.apply change
          stage := Function.update site.stage i .stored
          todo := Function.update site.todo i rest }
  | leave {site : Site ι φ} {i : ι} (stored : site.stage i = .stored) :
      Step site []
        { site with lock := site.lock.release, stage := Function.update site.stage i .idle }

/-- Some steps, and the changes stored in them. -/
inductive Runs (site : Site ι φ) : Schedule ι φ → Site ι φ → Prop where
  | refl : Runs site [] site
  | tail {made more : Schedule ι φ} {mid last : Site ι φ} (run : Runs site made mid)
      (step : Step mid more last) : Runs site (made ++ more) last

theorem Runs.trans {first mid last : Site ι φ} {made more : Schedule ι φ}
    (front : Runs first made mid) (back : Runs mid more last) :
    Runs first (made ++ more) last := by
  induction back with
  | refl => simpa using front
  | tail _ step ih => simpa using ih.tail step

/-! ## What a lock that excludes gives -/

/-- At most one client is making a change, none if nobody holds the lock, and a copy that a client
has is the delegate as it is stored. -/
structure Exclusive (site : Site ι φ) : Prop where
  excluding : site.lock.policy ≠ .noLock
  free : site.lock.holders = 0 → ∀ i, site.stage i = .idle
  alone : ∀ i j, site.stage i ≠ .idle → site.stage j ≠ .idle → i = j
  current : ∀ i copy, site.stage i = .copied copy → copy = site.delegate

omit [DecidableEq φ] [DecidableEq ι] in
/-- While one client makes a change the others make none. -/
theorem Exclusive.others {site : Site ι φ} (h : site.Exclusive) {i : ι}
    (busy : site.stage i ≠ .idle) (j : ι) (ne : j ≠ i) : site.stage j = .idle :=
  not_not.1 fun also => ne (h.alone j i also busy)

omit [DecidableEq φ] in
/-- It is enough to look at one client if the others make no change. -/
theorem Exclusive.of_others {site : Site ι φ} {i : ι} (excluding : site.lock.policy ≠ .noLock)
    (others : ∀ j, j ≠ i → site.stage j = .idle)
    (free : site.lock.holders = 0 → site.stage i = .idle)
    (current : ∀ copy, site.stage i = .copied copy → copy = site.delegate) :
    site.Exclusive where
  excluding := excluding
  free none j := by
    by_cases eq : j = i
    · exact eq ▸ free none
    · exact others j eq
  alone j k busyJ busyK := by
    have isI (l : ι) (busy : site.stage l ≠ .idle) : l = i :=
      not_not.1 fun ne => busy (others l ne)
    rw [isI j busyJ, isI k busyK]
  current j copy copied := by
    by_cases eq : j = i
    · exact current copy (eq ▸ copied)
    · exact absurd ((others j eq).symm.trans copied) (by simp)

theorem acquire?_eq_some {lock lock' : PolicyLock} {guard : LockGuard}
    (taken : lock.acquire? = some (guard, lock')) (excluding : lock.policy ≠ .noLock) :
    lock.holders = 0 ∧ lock' = { lock with holders := lock.holders + 1 } := by
  unfold PolicyLock.acquire? at taken
  split at taken
  next free =>
    simp only [Option.some.injEq, Prod.mk.injEq] at taken
    exact ⟨by simpa [excluding] using free, taken.2.symm⟩
  next => simp at taken

/-- Every step keeps clients from getting into each other's way. -/
theorem Step.exclusive {site next : Site ι φ} {made : Schedule ι φ} (step : Step site made next)
    (h : site.Exclusive) : next.Exclusive := by
  cases step with
  | @enter i _ _ _ _ idle _ taken =>
    obtain ⟨free, rfl⟩ := acquire?_eq_some taken h.excluding
    refine .of_others (i := i) h.excluding (fun j ne => ?_) (by simp) (by simp)
    simpa [ne] using h.free free j
  | @copy i holding =>
    have busy : site.stage i ≠ .idle := by simp [holding]
    refine .of_others (i := i) h.excluding (fun j ne => ?_) (fun none => ?_) (by simp)
    · simpa [ne] using h.others busy j ne
    · exact absurd (h.free none i) busy
  | @store i _ _ _ copied _ =>
    have busy : site.stage i ≠ .idle := by simp [copied]
    refine .of_others (i := i) h.excluding (fun j ne => ?_) (fun none => ?_) (by simp)
    · simpa [ne] using h.others busy j ne
    · exact absurd (h.free none i) busy
  | @leave i stored =>
    have busy : site.stage i ≠ .idle := by simp [stored]
    refine .of_others (i := i) h.excluding (fun j ne => ?_) (by simp) (by simp)
    simpa [ne] using h.others busy j ne

/-- A step changes the delegate by what is stored in it, as if at once. -/
theorem Step.delegate_eq {site next : Site ι φ} {made : Schedule ι φ} (step : Step site made next)
    (h : site.Exclusive) : next.delegate = site.delegate.applyAll made.changes := by
  cases step with
  | enter => rfl
  | copy => rfl
  | store copied _ => rw [h.current _ _ copied]; rfl
  | leave => rfl

/-- A change is stored by the client whose program it is the next of. -/
theorem Step.todo_eq {site next : Site ι φ} {made : Schedule ι φ} (step : Step site made next)
    (i : ι) : made.programOf i ++ next.todo i = site.todo i := by
  cases step with
  | enter => rfl
  | copy => rfl
  | @store j _ change rest _ queue =>
    by_cases eq : i = j
    · subst eq; simp [programOf, queue]
    · simp [programOf, Ne.symm eq, eq]
  | leave => rfl

/-- What a run has stored so far is in the delegate, and is of each program what is not left to
do. -/
structure Follows (d : Delegate φ) (programs : ι → List (Change φ)) (made : Schedule ι φ)
    (site : Site ι φ) : Prop where
  exclusive : site.Exclusive
  delegate : site.delegate = d.applyAll made.changes
  programs : ∀ i, made.programOf i ++ site.todo i = programs i

/-- Under a lock that excludes, runs follow their schedules. -/
theorem Runs.follows {d : Delegate φ} {programs : ι → List (Change φ)} {made : Schedule ι φ}
    {site : Site ι φ} (excluding : d.policy ≠ .noLock) (run : (start d programs).Runs made site) :
    site.Follows d programs made := by
  induction run with
  | refl =>
    exact ⟨⟨excluding, by simp [start], by simp [start], by simp [start]⟩, rfl,
      by simp [programOf, start]⟩
  | @tail made more mid last _ step ih =>
    refine ⟨step.exclusive ih.exclusive, ?_, fun i => ?_⟩
    · rw [step.delegate_eq ih.exclusive, ih.delegate]
      simp [Delegate.applyAll, changes]
    · rw [programOf_append, List.append_assoc, step.todo_eq, ih.programs]

/-! ## Every schedule is run -/

/-- Nobody is making a change. -/
structure Resting (site : Site ι φ) : Prop where
  free : site.lock.holders = 0
  idle : ∀ i, site.stage i = .idle

/-- A client that has the site to itself makes its next change. -/
theorem Resting.exists_runs {site : Site ι φ} (h : site.Resting) {i : ι} {change : Change φ}
    {rest : List (Change φ)} (next : site.todo i = change :: rest) :
    ∃ last, site.Runs [(i, change)] last ∧ last.Resting
      ∧ last.delegate = site.delegate.apply change
      ∧ last.todo = Function.update site.todo i rest := by
  have taken : site.lock.acquire?
      = some (⟨site.lock.policy⟩, { site.lock with holders := site.lock.holders + 1 }) := by
    simp [PolicyLock.acquire?, h.free]
  have entered := Runs.refl.tail (Step.enter (h.idle i) next taken)
  have copied := entered.tail (.copy (i := i) (by simp))
  have stored := copied.tail (.store (i := i) (by simp; rfl) next)
  have left := stored.tail (.leave (i := i) (by simp))
  refine ⟨_, left, ⟨?_, fun j => ?_⟩, rfl, rfl⟩
  · simp [PolicyLock.release, h.free]
  · by_cases eq : j = i
    · simp [eq]
    · simp [eq, h.idle j]

/-- Clients that take turns at whole changes get through any schedule. -/
theorem Resting.exists_finished {site : Site ι φ} (h : site.Resting) {schedule : Schedule ι φ}
    (runs : schedule.Interleaves site.todo) :
    ∃ last, site.Runs schedule last ∧ last.Finished
      ∧ last.delegate = site.delegate.applyAll schedule.changes := by
  induction schedule generalizing site with
  | nil => exact ⟨site, .refl, fun i => ⟨h.idle i, (runs i).symm⟩, rfl⟩
  | cons step rest ih =>
    obtain ⟨i, change⟩ := step
    have next : site.todo i = change :: programOf rest i :=
      (runs i).symm.trans (programOf_cons_self i change rest)
    obtain ⟨mid, first, resting, delegate, todo⟩ := h.exists_runs next
    have left : Interleaves rest mid.todo := fun j => by
      by_cases eq : j = i
      · simp [todo, eq]
      · rw [todo, Function.update_of_ne eq, ← runs j, programOf_cons_of_ne (Ne.symm eq)]
    obtain ⟨last, back, finished, result⟩ := ih resting left
    exact ⟨last, first.trans back, finished, by rw [result, delegate]; rfl⟩

end Site

/-! ## What is left behind -/

variable [DecidableEq φ] [DecidableEq ι]

/-- What the delegate may have become when all clients are through with their programs. -/
def Leaves (d : Delegate φ) (programs : ι → List (Change φ)) (left : Delegate φ) : Prop :=
  ∃ made site, (Site.start d programs).Runs made site ∧ site.Finished ∧ site.delegate = left

/-- Under a lock that excludes, clients at work leave what their programs leave in some schedule. -/
theorem leaves_iff {d left : Delegate φ} {programs : ι → List (Change φ)}
    (excluding : d.policy ≠ .noLock) :
    Leaves d programs left
      ↔ ∃ schedule : Schedule ι φ, schedule.Interleaves programs
          ∧ d.applyAll schedule.changes = left := by
  constructor
  · rintro ⟨made, site, run, finished, rfl⟩
    have follows := run.follows excluding
    refine ⟨made, fun i => ?_, follows.delegate.symm⟩
    simpa [(finished i).2] using follows.programs i
  · rintro ⟨schedule, runs, rfl⟩
    have resting : (Site.start d programs).Resting := ⟨rfl, fun _ => rfl⟩
    obtain ⟨last, run, finished, delegate⟩ := resting.exists_finished runs
    exact ⟨schedule, last, run, finished, delegate⟩

/-- Clients whose handlers are apart, at a delegate with a lock that excludes, do not come into each
other's way. Whatever the order of their steps, they leave what some schedule of whole changes
leaves. Each client finds its own handlers as if it had been alone; and clients that each append
their own handler some number of times leave it that many times more, and nothing besides. -/
theorem part_of_leaves {owns : ι → Handler φ → Bool} (apart : Apart owns)
    {programs : ι → List (Change φ)} (uses : ∀ i, ∀ change ∈ programs i, change.Uses (owns i))
    {d : Delegate φ} (excluding : d.policy ≠ .noLock) :
    (∀ left, Leaves d programs left
      ↔ ∃ schedule : Schedule ι φ, schedule.Interleaves programs
          ∧ d.applyAll schedule.changes = left)
    ∧ (∀ left, Leaves d programs left →
        ∀ i, left.part (owns i) = (d.part (owns i)).applyAll (programs i))
    ∧ ∀ (n times : Nat) (handler : Fin n → Handler φ),
        (∀ i j, i ≠ j → (handler i).same (handler j) = false) →
        ∀ left, Leaves d (fun i => appendProgram (handler i) times) left →
          (∀ i, left.occurrences (handler i) = d.occurrences (handler i) + times)
          ∧ left.size = d.size + n * times := by
  refine ⟨fun left => leaves_iff excluding, ?parts, ?appends⟩
  case parts =>
    intro left leaves i
    obtain ⟨schedule, runs, rfl⟩ := (leaves_iff excluding).1 leaves
    have used : ∀ i, ∀ change ∈ schedule.programOf i, change.Uses (owns i) := fun i change mem =>
      uses i change (runs i ▸ mem)
    rw [part_applyAll apart schedule used d i, runs i]
  case appends =>
    intro n times handler different left leaves
    obtain ⟨schedule, runs, rfl⟩ := (leaves_iff excluding).1 leaves
    refine ⟨occurrences_applyAll_appends different runs d, ?_⟩
    simpa using size_applyAll_appends runs d

/-- The first of two clients appends its handler twice; the second takes away all of its own and
appends one again. -/
theorem part_of_leaves_pair :
    let owns (i : Fin 2) (h : Handler Empty) : Bool := h.cell = i
    let programs (i : Fin 2) : List (Change Empty) :=
      if i = 0 then [.append ⟨0, none⟩, .append ⟨0, none⟩]
      else [.removeAll ⟨[⟨1, none⟩], .noLock⟩, .append ⟨1, none⟩]
    let d : Delegate Empty := ⟨[⟨1, none⟩, ⟨0, none⟩, ⟨1, none⟩], .mutex⟩
    let left : Delegate Empty := ⟨[⟨0, none⟩, ⟨0, none⟩, ⟨1, none⟩, ⟨0, none⟩], .mutex⟩
    Leaves d programs left
      ∧ left.part (owns 0) = ⟨[⟨0, none⟩, ⟨0, none⟩, ⟨0, none⟩], .mutex⟩
      ∧ left.part (owns 1) = ⟨[⟨1, none⟩], .mutex⟩ := by
  intro owns programs d left
  have apart : Apart owns := by
    intro i j ne h k mine other
    have cells : h.cell ≠ k.cell := fun eq =>
      ne (Fin.ext (by simp only [owns, decide_eq_true_eq] at mine other; omega))
    rcases h with ⟨cell, _ | f⟩
    · rcases k with ⟨cell', _ | g⟩
      · simpa [Handler.same] using cells
      · exact g.elim
    · exact f.elim
  let schedule : Schedule (Fin 2) Empty :=
    [(0, .append ⟨0, none⟩), (1, .removeAll ⟨[⟨1, none⟩], .noLock⟩), (1, .append ⟨1, none⟩),
      (0, .append ⟨0, none⟩)]
  have runs : schedule.Interleaves programs := by
    intro i
    obtain rfl | rfl : i = 0 ∨ i = 1 := by omega
    · decide
    · decide
  obtain ⟨schedules, parts, _⟩ :=
    @part_of_leaves Empty (Fin 2) _ _ owns apart programs (by decide) d (by decide)
  have leaves : Leaves d programs left := (schedules left).2 ⟨schedule, runs, by decide⟩
  exact ⟨leaves, (parts left leaves 0).trans (by decide), (parts left leaves 1).trans (by decide)⟩

end Groundwork
