import ClassWeave.ClassUnit.Basic
import Mathlib.Data.List.Induction
/-!
# ClassUnit -- the life of a unit

A unit is worked on in place by whoever holds it: what a call has changed
before it is refused stays changed. The calls are written down that way
(`ClassUnit.Call.perform`), together with the states that are taken on the
way, and each of them does what the function on units says and takes the
states that it should (`Call.perform_eq`). So no call is refused with half of
it done, the one that takes two steps included.

A state is reached over the same states whatever was called
(`EnhancementState.path`), and the reason that is kept with a state stands
with no other (`ClassUnit.Lawful`). Every call keeps this (`Lawful.perform`),
so it holds after every history of calls.
-/

namespace ClassWeave

namespace EnhancementState

variable {s next : EnhancementState}

/-- The states that lead to a state, itself the last. -/
def path : EnhancementState → List EnhancementState
  | .unprocessed => [.unprocessed]
  | .inProgress => [.unprocessed, .inProgress]
  | .enhanced => [.unprocessed, .inProgress, .enhanced]
  | .skipped => [.unprocessed, .skipped]
  | .failed => [.unprocessed, .inProgress, .failed]

/-- The lives that a unit can have. -/
def lives : List (List EnhancementState) :=
  [[.unprocessed, .inProgress, .enhanced], [.unprocessed, .inProgress, .failed],
    [.unprocessed, .skipped]]

theorem path_concat (h : s.canAdvance next = true) : next.path = s.path ++ [next] := by
  cases s <;> cases next <;> first | rfl | cases h

theorem exists_life (s : EnhancementState) : ∃ life ∈ lives, s.path <+: life := by
  cases s <;> decide

theorem getLast?_path (s : EnhancementState) : s.path.getLast? = some s := by
  cases s <;> rfl

/-- No step leaves a final state. -/
theorem canAdvance_of_isFinal (h : s.isFinal = true) (next : EnhancementState) :
    s.canAdvance next = false := by
  cases s <;> first | rfl | cases h

end EnhancementState

namespace ClassUnit

/-! ## Calls -/

/-- What can be asked of a unit. -/
inductive Call where
  | advance (next : EnhancementState)
  | skip (reason : SkipReason)
  | fail (reason : String)
  | install (bytes : Bytes)

/-- A unit in someone's hands, and the states that it has taken so far. -/
structure Held where
  unit : ClassUnit
  states : List EnhancementState

/-- Work on a unit in place. A refusal gives the unit back as it is by
then. -/
abbrev InPlace := EStateM StateError Held Unit

/-- The unit takes a state, if there is a step to it. -/
def take (next : EnhancementState) : InPlace := do
  let h ← get
  if h.unit.state.canAdvance next then
    set { h with unit.state := next, states := h.states ++ [next] }
  else throw ⟨h.unit.name, h.unit.state, next⟩

namespace Call

variable {c : Call} {u v : ClassUnit} {h h' : Held} {e : StateError}

/-- What a call does to a unit in place, one change after the other. -/
def perform : Call → InPlace
  | .advance next => take next
  | .skip reason => do
    take .skipped
    modify fun h => { h with unit.skipReason := some reason }
  | .fail reason => do
    if (← get).unit.state = .unprocessed then take .inProgress
    take .failed
    modify fun h => { h with unit.failure := some reason }
  | .install bytes => modify fun h => { h with unit.enhanced := some bytes }

/-- What a call makes of a unit. -/
def on (u : ClassUnit) : Call → Except StateError ClassUnit
  | .advance next => u.advance next
  | .skip reason => u.skip reason
  | .fail reason => u.fail reason
  | .install bytes => .ok (u.install bytes)

/-- The states that a call takes a unit through from a state. -/
def taken (s : EnhancementState) : Call → List EnhancementState
  | .advance next => [next]
  | .skip _ => [.skipped]
  | .fail _ => if s = .unprocessed then [.inProgress, .failed] else [.failed]
  | .install _ => []

/-- The octets that a call installs. -/
def installed? : Call → Option Bytes
  | .install bytes => some bytes
  | _ => none

/-- Taking a state is a step of the unit, or nothing. -/
theorem run_take (next : EnhancementState) (h : Held) :
    take next h = match h.unit.advance next with
      | .ok u => .ok () ⟨u, h.states ++ [next]⟩
      | .error e => .error e h := by
  have hrun : take next h = (if h.unit.state.canAdvance next then
      set { h with unit.state := next, states := h.states ++ [next] }
    else throw ⟨h.unit.name, h.unit.state, next⟩ : InPlace) h := rfl
  rw [hrun, ClassUnit.advance]
  by_cases hstep : h.unit.state.canAdvance next = true
  · rw [if_pos hstep, if_pos hstep]
    rfl
  · rw [if_neg hstep, if_neg hstep]
    rfl

/-- **A call in place does what the call does to the unit**, and takes the
states that it should; or it is refused as the unit refuses it, and the unit
is left as it was. -/
theorem perform_eq (c : Call) (h : Held) :
    c.perform h = match c.on h.unit with
      | .ok u => .ok () ⟨u, h.states ++ c.taken h.unit.state⟩
      | .error e => .error e h := by
  cases c with
  | advance next => exact run_take next h
  | skip reason =>
    have htake := run_take .skipped h
    rw [on, ClassUnit.skip]
    unfold perform
    rcases hstep : h.unit.advance .skipped with e | u
    · simp only [bind, EStateM.bind, htake, hstep, Except.bind]
    · simp only [bind, EStateM.bind, htake, hstep, Except.bind]
      rfl
  | fail reason =>
    let last : InPlace :=
      take .failed >>= fun _ => modify fun h => { h with unit.failure := some reason }
    have hrun : (fail reason).perform h =
        (if h.unit.state = .unprocessed then take .inProgress >>= fun _ => last else last) h := rfl
    rw [hrun, on, ClassUnit.fail, taken]
    by_cases hnew : h.unit.state = .unprocessed
    · -- the first step cannot be refused, and then the second cannot be
      have hstart : h.unit.advance .inProgress = .ok { h.unit with state := .inProgress } := by
        rw [ClassUnit.advance, hnew]
        rfl
      have hfirst := run_take .inProgress h
      have hlast := run_take .failed
        ⟨{ h.unit with state := .inProgress }, h.states ++ [.inProgress]⟩
      rw [hstart] at hfirst
      rw [if_pos hnew, if_pos hnew, if_pos hnew]
      simp only [last, bind, EStateM.bind, hfirst, hlast, hstart, Except.bind, List.append_assoc]
      rfl
    · have hlast := run_take .failed h
      rw [if_neg hnew, if_neg hnew, if_neg hnew]
      rcases hstep : h.unit.advance .failed with e | u
      · simp only [last, bind, EStateM.bind, hlast, hstep, Except.bind]
      · simp only [last, bind, EStateM.bind, hlast, hstep, Except.bind]
        rfl
  | install bytes =>
    rw [on, taken, List.append_nil]
    rfl

/-- **What an accepted call changes**: the enhanced octets, or the state, over
a step that there is, and the reason that goes with it. -/
theorem on_ok (hon : c.on u = .ok v) :
    (∃ bytes, c = .install bytes ∧ v = { u with enhanced := some bytes }) ∨
      (∃ next, c = .advance next ∧ u.state.canAdvance next = true ∧ v = { u with state := next }) ∨
      (∃ reason, c = .skip reason ∧ u.state = .unprocessed ∧
        v = { u with state := .skipped, skipReason := some reason }) ∨
      ∃ reason, c = .fail reason ∧ (u.state = .unprocessed ∨ u.state = .inProgress) ∧
        v = { u with state := .failed, failure := some reason } := by
  cases c with
  | install bytes => exact .inl ⟨bytes, rfl, (Except.ok.inj hon).symm⟩
  | advance next =>
    simp only [on, ClassUnit.advance] at hon
    split at hon
    · next hstep => exact .inr (.inl ⟨next, rfl, hstep, (Except.ok.inj hon).symm⟩)
    · cases hon
  | skip reason =>
    refine .inr (.inr (.inl ⟨reason, rfl, ?_⟩))
    cases hu : u.state <;> simp [on, ClassUnit.skip, ClassUnit.advance, hu,
      EnhancementState.canAdvance, bind, Except.bind, pure, Except.pure] at hon ⊢
    exact hon.symm
  | fail reason =>
    refine .inr (.inr (.inr ⟨reason, rfl, ?_⟩))
    cases hu : u.state <;> simp [on, ClassUnit.fail, ClassUnit.advance, hu,
      EnhancementState.canAdvance, bind, Except.bind, pure, Except.pure] at hon ⊢ <;>
    exact hon.symm

end Call

/-! ## What every call keeps -/

namespace Held

variable {c : Call} {h h' h'' : Held} {i i' : Option Bytes}

/-- **A unit in good order**: its states are those that lead to the state it
is in, and it has a reason to be skipped or to have failed only if it is or
has. -/
structure Lawful (h : Held) : Prop where
  states : h.states = h.unit.state.path
  skipReason : ∀ reason, h.unit.skipReason = some reason → h.unit.state = .skipped
  failure : ∀ reason, h.unit.failure = some reason → h.unit.state = .failed

/-- **What becomes of a unit** that octets were installed in, or none: it is
the same one, and if it was in a final state it keeps all that goes with
that. -/
structure Follows (h h' : Held) (installed : Option Bytes) : Prop where
  name : h'.unit.name = h.unit.name
  location : h'.unit.location = h.unit.location
  compiled : h'.unit.compiled = h.unit.compiled
  enhanced : h'.unit.enhanced = installed.or h.unit.enhanced
  final : h.unit.state.isFinal = true → h'.unit.state = h.unit.state ∧ h'.states = h.states ∧
    h'.unit.skipReason = h.unit.skipReason ∧ h'.unit.failure = h.unit.failure

theorem Follows.refl (h : Held) : Follows h h none :=
  ⟨rfl, rfl, rfl, rfl, fun _ => ⟨rfl, rfl, rfl, rfl⟩⟩

/-- What follows from what follows does so from the first. -/
theorem Follows.trans (hfirst : Follows h h' i) (hlast : Follows h' h'' i') :
    Follows h h'' (i'.or i) where
  name := hlast.name.trans hfirst.name
  location := hlast.location.trans hfirst.location
  compiled := hlast.compiled.trans hfirst.compiled
  enhanced := by rw [hlast.enhanced, hfirst.enhanced, Option.or_assoc]
  final hfinal := by
    obtain ⟨hstate, hstates, hskip, hfail⟩ := hfirst.final hfinal
    obtain ⟨hstate', hstates', hskip', hfail'⟩ := hlast.final (by rw [hstate, hfinal])
    exact ⟨hstate'.trans hstate, hstates'.trans hstates, hskip'.trans hskip, hfail'.trans hfail⟩

/-- A state that can be left has no reason beside it. -/
theorem Lawful.of_not_isFinal (hlaw : h.Lawful) (hstate : ¬ h.unit.state.isFinal = true) :
    h.unit.skipReason = none ∧ h.unit.failure = none := by
  rw [Option.eq_none_iff_forall_ne_some, Option.eq_none_iff_forall_ne_some]
  refine ⟨fun reason hreason => hstate ?_, fun reason hreason => hstate ?_⟩
  · rw [hlaw.skipReason reason hreason]
    rfl
  · rw [hlaw.failure reason hreason]
    rfl

/-- **An accepted call keeps a unit in good order.** -/
theorem Lawful.perform (hlaw : h.Lawful) (hcall : c.perform h = .ok () h') :
    h'.Lawful ∧ Follows h h' c.installed? := by
  rw [Call.perform_eq] at hcall
  split at hcall
  swap
  · cases hcall
  next u hon =>
  obtain rfl : (⟨u, h.states ++ c.taken h.unit.state⟩ : Held) = h' := by
    cases hcall
    rfl
  rcases Call.on_ok hon with ⟨bytes, rfl, rfl⟩ | ⟨next, rfl, hstep, rfl⟩ |
    ⟨reason, rfl, hstate, rfl⟩ | ⟨reason, rfl, hstate, rfl⟩
  · exact ⟨⟨by simp [Call.taken, hlaw.states], hlaw.skipReason, hlaw.failure⟩,
      rfl, rfl, rfl, rfl, fun _ => ⟨rfl, by simp [Call.taken], rfl, rfl⟩⟩
  · obtain ⟨hskip, hfail⟩ := hlaw.of_not_isFinal fun hfinal => by
      rw [EnhancementState.canAdvance_of_isFinal hfinal] at hstep
      cases hstep
    refine ⟨⟨?_, by simp [hskip], by simp [hfail]⟩, rfl, rfl, rfl, rfl, fun hfinal => ?_⟩
    · rw [hlaw.states, EnhancementState.path_concat hstep, Call.taken]
    · rw [EnhancementState.canAdvance_of_isFinal hfinal] at hstep
      cases hstep
  · obtain ⟨hskip, hfail⟩ := hlaw.of_not_isFinal (by rw [hstate]; nofun)
    refine ⟨⟨?_, fun _ _ => rfl, by simp [hfail]⟩, rfl, rfl, rfl, rfl, fun hfinal => ?_⟩
    · rw [hlaw.states, hstate, Call.taken]
      rfl
    · rw [hstate] at hfinal
      cases hfinal
  · obtain ⟨hskip, hfail⟩ := hlaw.of_not_isFinal <| by
      rcases hstate with hstate | hstate <;> rw [hstate] <;> nofun
    refine ⟨⟨?_, by simp [hskip], fun _ _ => rfl⟩, rfl, rfl, rfl, rfl, fun hfinal => ?_⟩
    · rw [hlaw.states]
      rcases hstate with hstate | hstate <;> rw [hstate, Call.taken] <;> rfl
    · rcases hstate with hstate | hstate <;> rw [hstate] at hfinal <;> cases hfinal

/-! ## Histories -/

/-- The unit after a call, accepted or refused. -/
def proceed (h : Held) (c : Call) : Held :=
  match c.perform h with
  | .ok _ h' => h'
  | .error _ h' => h'

/-- The unit after a history of calls. -/
def after (h : Held) (calls : List Call) : Held := calls.foldl proceed h

/-- A new unit, in the state that it starts in. -/
def ofNew (name : String) (location : UnitLocation) (compiled : Bytes) : Held :=
  ⟨.fresh name location compiled, [.unprocessed]⟩

/-- The octets that were installed last. -/
def lastInstalled? (calls : List Call) : Option Bytes :=
  (calls.filterMap Call.installed?).getLast?

/-- One more call is the last to install something, or leaves that to those
before it. -/
theorem lastInstalled?_concat (calls : List Call) (c : Call) :
    lastInstalled? (calls ++ [c]) = c.installed?.or (lastInstalled? calls) := by
  rw [lastInstalled?, lastInstalled?, List.filterMap_append, List.getLast?_append]
  congr 1
  cases hc : c.installed? <;> simp [hc]

/-- **A call keeps a unit in good order**, accepted or refused. -/
theorem Lawful.proceed (hlaw : h.Lawful) (c : Call) :
    (h.proceed c).Lawful ∧ Follows h (h.proceed c) c.installed? := by
  rw [Held.proceed]
  rcases hon : c.on h.unit with e | u
  · have hcall : c.perform h = .error e h := by rw [Call.perform_eq, hon]
    have hnone : c.installed? = none := by
      cases c <;> first | rfl | cases hon
    rw [hcall, hnone]
    exact ⟨hlaw, .refl h⟩
  · have hcall : c.perform h = .ok () ⟨u, h.states ++ c.taken h.unit.state⟩ := by
      rw [Call.perform_eq, hon]
    rw [hcall]
    exact hlaw.perform hcall

/-- **So does every history of calls.** -/
theorem Lawful.after (hlaw : h.Lawful) (calls : List Call) :
    (h.after calls).Lawful ∧ Follows h (h.after calls) (lastInstalled? calls) := by
  induction calls using List.reverseRecOn with
  | nil => exact ⟨hlaw, .refl h⟩
  | append_singleton calls c ih =>
    obtain ⟨hlaw', hfollows⟩ := ih
    obtain ⟨hlaw'', hfollows'⟩ := hlaw'.proceed c
    rw [Held.after, List.foldl_append, lastInstalled?_concat]
    exact ⟨hlaw'', hfollows.trans hfollows'⟩

/-- **The life of a unit.** Whatever was called on a new unit, and in whatever
order: the states that it took are the beginning of a life, and a final state
is never left. A call that is refused leaves the unit as it was, and one that
is accepted does what it does to the unit. There is a reason to be skipped or
to have failed only in the state that it goes with, and once there it stays.
The unit keeps its name, its location and its compiled octets, and its current
ones are those that were installed last, or the compiled ones. -/
theorem lifecycle (name : String) (location : UnitLocation) (compiled : Bytes)
    (calls : List Call) :
    let h := (ofNew name location compiled).after calls
    (∃ life ∈ EnhancementState.lives, h.states <+: life) ∧
      h.states.getLast? = some h.unit.state ∧
      (h.unit.state.isFinal = true →
        ∀ later, (h.after later).unit.state = h.unit.state ∧ (h.after later).states = h.states) ∧
      (∀ (c : Call) u, c.on h.unit = .ok u → ∃ states, c.perform h = .ok () ⟨u, states⟩) ∧
      (∀ (c : Call) e, c.on h.unit = .error e → c.perform h = .error e h) ∧
      (∀ reason, h.unit.skipReason = some reason → h.unit.state = .skipped ∧
        ∀ later, (h.after later).unit.skipReason = some reason) ∧
      (∀ reason, h.unit.failure = some reason → h.unit.state = .failed ∧
        ∀ later, (h.after later).unit.failure = some reason) ∧
      h.unit.name = name ∧ h.unit.location = location ∧ h.unit.compiled = compiled ∧
      h.unit.current = (lastInstalled? calls).getD compiled := by
  intro h
  have hnew : (ofNew name location compiled).Lawful := ⟨rfl, nofun, nofun⟩
  obtain ⟨hlaw, hfollows⟩ : h.Lawful ∧ Follows _ h (lastInstalled? calls) := hnew.after calls
  refine ⟨?_, ?_, fun hfinal later => ?_, fun c u hon => ?_, fun c e hon => ?_,
    fun reason hreason => ?_, fun reason hreason => ?_, hfollows.name, hfollows.location,
    hfollows.compiled, ?_⟩
  · rw [hlaw.states]
    exact h.unit.state.exists_life
  · rw [hlaw.states, EnhancementState.getLast?_path]
  · obtain ⟨hstate, hstates, -, -⟩ := (hlaw.after later).2.final hfinal
    exact ⟨hstate, hstates⟩
  · exact ⟨_, by rw [Call.perform_eq, hon]⟩
  · rw [Call.perform_eq, hon]
  · have hstate := hlaw.skipReason reason hreason
    refine ⟨hstate, fun later => ?_⟩
    rw [((hlaw.after later).2.final (by rw [hstate]; rfl)).2.2.1, hreason]
  · have hstate := hlaw.failure reason hreason
    refine ⟨hstate, fun later => ?_⟩
    rw [((hlaw.after later).2.final (by rw [hstate]; rfl)).2.2.2, hreason]
  · have hnone : (ofNew name location compiled).unit.enhanced = none := rfl
    rw [current, hfollows.compiled, hfollows.enhanced, hnone, Option.or_none]
    rfl

end Held

end ClassUnit

end ClassWeave
