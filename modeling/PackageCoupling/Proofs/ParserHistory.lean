import Mathlib.Data.Finset.Card
import Mathlib.Data.List.DropRight
import PackageCoupling.Extraction.Basic

/-!
# The registry is told by its history

Parsers are loaded when they are first needed, may be poisoned, and are dropped together. After any
sequence of such steps the registry holds what the steps since it was last cleared say, language by
language:

* `step_spec`: what one step that does not clear does to the registry;
* `reflects_after`: after any steps, the registry reflects those since it was last cleared;
* `Request.run_of_unread`, `Request.run_of_read`: an extraction sees nothing of the registry but
  whether the parser of its own language is poisoned, and that only once it has read its file.
-/

namespace PackageCoupling

namespace Extraction

/-- An extraction that is asked for: a file below a root, and what is known and decided about it. -/
structure Request where
  tree : Node
  root : RawText
  path : RawText
  language : Language
  modules : ModuleMap
  cancelled : Bool

namespace Request

/-- The content of the file. -/
def content (request : Request) : Except FileError Bytes :=
  request.tree.read (request.root.append request.path)

def run (request : Request) (registry : Registry) : Except Fault FileImports × Registry :=
  ofFile request.tree request.root request.language request.modules request.cancelled registry
    request.path

theorem run_of_unread {request : Request} {e : FileError} (unread : request.content = .error e)
    (registry : Registry) :
    request.run registry = (.error (.readFailure request.path.text e.message), registry) :=
  ofFile_of_unread _ _ _ _ unread

theorem run_of_read {request : Request} {content : Bytes} (read : request.content = .ok content)
    (registry : Registry) :
    request.run registry =
      (if registry.isPoisoned request.language then .error (.poisonedParser request.language)
        else if request.cancelled then .error .canceled
        else ofSource request.language request.modules request.path.text content,
      registry.acquire request.language) :=
  ofFile_of_read _ _ _ _ read

end Request

end Extraction

namespace Registry

open Extraction

inductive Step where
  | acquire (l : Language)
  | poison (l : Language)
  | clear
  | extract (request : Request)

namespace Step

def isClear : Step → Bool
  | .clear => true
  | _ => false

/-- The language whose parser a step needs. An extraction needs it once it has read its file. -/
def loads? : Step → Option Language
  | .acquire l => some l
  | .poison l => some l
  | .clear => none
  | .extract request => request.content.toOption.map fun _ => request.language

end Step

def step (r : Registry) : Step → Registry
  | .acquire l => r.acquire l
  | .poison l => r.poison l
  | .clear => r.clear
  | .extract request => (request.run r).2

/-- The registry after some steps from the beginning. -/
def after (steps : List Step) : Registry := steps.foldl step empty

/-- The steps behind the last one that clears. -/
def sinceClear (steps : List Step) : List Step := steps.rtakeWhile fun s => !s.isClear

/-! ## One step -/

/-- A step that does not clear loads the parser it needs, and poisons one if that is its purpose. -/
theorem step_spec (r : Registry) {s : Step} (keeps : s.isClear = false) :
    (∀ l, l ∈ (r.step s).loaded ↔ l ∈ r.loaded ∨ s.loads? = some l) ∧
    (r.loaded.Nodup → (r.step s).loaded.Nodup) ∧
    ∀ l, l ∈ (r.step s).poisoned ↔ l ∈ r.poisoned ∨ s = .poison l := by
  cases s with
  | acquire k =>
    refine ⟨fun l => ?_, fun h => nodup_loaded_acquire h k, fun l => ?_⟩
    · simp only [step, mem_loaded_acquire, Step.loads?, Option.some.injEq, eq_comm]
    · simp only [step, poisoned_acquire, reduceCtorEq, or_false]
  | poison k =>
    refine ⟨fun l => ?_, fun h => ?_, fun l => ?_⟩
    · simp only [step, loaded_poison, mem_loaded_acquire, Step.loads?, Option.some.injEq, eq_comm]
    · rw [step, loaded_poison]
      exact nodup_loaded_acquire h k
    · simp only [step, mem_poisoned_poison, Step.poison.injEq, eq_comm]
  | clear => cases keeps
  | extract request =>
    cases read : request.content with
    | error e =>
      have same : r.step (.extract request) = r := by rw [step, Request.run_of_unread read]
      simp [same, Step.loads?, read, Except.toOption]
    | ok content =>
      have loaded : r.step (.extract request) = r.acquire request.language := by
        rw [step, Request.run_of_read read]
      rw [loaded]
      refine ⟨fun l => ?_, fun h => nodup_loaded_acquire h _, fun l => ?_⟩
      · simp [mem_loaded_acquire, Step.loads?, read, Except.toOption, eq_comm]
      · simp [poisoned_acquire]

/-! ## Any steps -/

theorem after_concat (steps : List Step) (s : Step) :
    after (steps ++ [s]) = (after steps).step s :=
  List.foldl_concat ..

theorem sinceClear_concat (steps : List Step) (s : Step) :
    sinceClear (steps ++ [s]) = if s.isClear then [] else sinceClear steps ++ [s] := by
  rw [sinceClear, List.rtakeWhile_concat, ← sinceClear]
  cases s.isClear <;> rfl

/-- Whether a registry holds what steps that do not clear lead to from the empty one: a parser for
each language that some step needs, and the poisoned ones are those that some step poisons. -/
structure Reflects (r : Registry) (recent : List Step) : Prop where
  loaded : ∀ l, l ∈ r.loaded ↔ l ∈ recent.filterMap Step.loads?
  once : r.loaded.Nodup
  poisoned : ∀ l, l ∈ r.poisoned ↔ .poison l ∈ recent

theorem reflects_empty : empty.Reflects [] := by
  constructor <;> simp [empty]

theorem reflects_step {r : Registry} {recent : List Step} (h : r.Reflects recent) {s : Step}
    (keeps : s.isClear = false) : (r.step s).Reflects (recent ++ [s]) := by
  obtain ⟨loaded, once, poisoned⟩ := step_spec r keeps
  refine ⟨fun l => ?_, once h.once, fun l => ?_⟩
  · rw [loaded, h.loaded, List.filterMap_append, List.mem_append]
    simp
  · rw [poisoned, h.poisoned, List.mem_append, List.mem_singleton, eq_comm]

theorem reflects_after (steps : List Step) : (after steps).Reflects (sinceClear steps) := by
  -- Going forward in time: a step is added behind the others.
  induction steps using List.reverseRecOn with
  | nil => exact reflects_empty
  | append_singleton steps s ih =>
    rw [after_concat, sinceClear_concat]
    cases clears : s.isClear with
    | false => exact reflects_step ih clears
    | true =>
      cases s with
      | clear => exact reflects_empty
      | acquire | poison | extract => cases clears

theorem size_of_reflects {r : Registry} {recent : List Step} (h : r.Reflects recent) :
    r.size = (recent.filterMap Step.loads?).toFinset.card := by
  have same : r.loaded.toFinset = (recent.filterMap Step.loads?).toFinset := by
    ext l
    rw [List.mem_toFinset, List.mem_toFinset, h.loaded]
  rw [← same, List.toFinset_card_of_nodup h.once, size]

/-- The registry after any steps. A parser is poisoned exactly if it has been poisoned since the
last clearing, and as many are loaded as there are languages whose parser has been acquired or
poisoned since then, or for which a file has been read. An extraction whose file cannot be read
fails for that and leaves the registry alone. Any other fails if the parser of its own language is
poisoned, then if the run has been cancelled, and otherwise gives what it gives with fresh parsers.
-/
theorem after_steps (steps : List Step) :
    let r := after steps
    (∀ l, r.isPoisoned l = true ↔ .poison l ∈ sinceClear steps) ∧
    r.size = ((sinceClear steps).filterMap Step.loads?).toFinset.card ∧
    ∀ request : Request,
      match request.content with
      | .error e => request.run r = (.error (.readFailure request.path.text e.message), r)
      | .ok _ =>
        (request.run r).1 =
          if r.isPoisoned request.language then .error (.poisonedParser request.language)
          else if request.cancelled then .error .canceled
          else (request.run .empty).1 := by
  intro r
  have history : r.Reflects (sinceClear steps) := reflects_after steps
  refine ⟨fun l => (isPoisoned_iff r l).trans (history.poisoned l), size_of_reflects history, ?_⟩
  intro request
  cases read : request.content with
  | error e => exact Request.run_of_unread read r
  | ok content =>
    have fresh : (Registry.empty).isPoisoned request.language = false := rfl
    simp only [Request.run_of_read read, fresh]
    split
    · rfl
    · split <;> rfl

end Registry

end PackageCoupling
