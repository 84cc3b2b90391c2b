import CursorCommand.Session
import Mathlib.Data.List.DropRight

/-!
# What the answers of a session depend on

A session carries a configuration and a document from step to step. Here both are read off the
history instead: the last document, the last settings that had the section, and the last template of
each kind since then. `Session.run_initial` says that the running state is what the history says.
-/
namespace CursorCommand

namespace Config

/-- A configuration with templates in the place of its own, where there are any. -/
def overridden (c : Config) (templates : CommandKind → Option String) : Config :=
  { c with
    run := (templates .run).or c.run
    runAndUpdateSnapshots := (templates .runAndUpdateSnapshots).or c.runAndUpdateSnapshots }

theorem overridden_none (c : Config) : c.overridden (fun _ => none) = c := rfl

theorem withTemplate_overridden (c : Config) (templates : CommandKind → Option String)
    (kind : CommandKind) (template : String) :
    (c.overridden templates).withTemplate kind template =
      c.overridden fun k => if k = kind then some template else templates k := by
  cases kind <;> rfl

/-- Two configurations that differ in nothing but the template of a kind. -/
def AgreeBut (kind : CommandKind) (c c' : Config) : Prop :=
  ∀ template, c.withTemplate kind template = c'.withTemplate kind template

theorem agreeBut_withTemplate (c : Config) (kind : CommandKind) (template : String) :
    AgreeBut kind (c.withTemplate kind template) c := by
  intro template'
  cases kind <;> rfl

theorem AgreeBut.withTemplate {kind : CommandKind} {c c' : Config} (h : AgreeBut kind c c')
    (kind' : CommandKind) (template : String) :
    AgreeBut kind (c.withTemplate kind' template) (c'.withTemplate kind' template) := by
  intro template'
  have hagree := h template'
  cases kind <;> cases kind' <;> simp_all [Config.withTemplate]

theorem resolve_withTemplate_of_ne (c : Config) (d : Document) {kind other : CommandKind}
    (hne : other ≠ kind) (template : String) (cursor : Position) :
    resolve (c.withTemplate kind template) d other cursor = resolve c d other cursor := by
  have htemplate : (c.withTemplate kind template).template? other = c.template? other := by
    rw [template?, chosen_withTemplate_of_ne c hne, ← template?]
  rw [resolve, resolve, htemplate]
  cases kind <;> rfl

theorem AgreeBut.resolve_eq {kind other : CommandKind} {c c' : Config} (h : AgreeBut kind c c')
    (hne : other ≠ kind) (d : Document) (cursor : Position) :
    resolve c d other cursor = resolve c' d other cursor := by
  rw [← resolve_withTemplate_of_ne c d hne "", ← resolve_withTemplate_of_ne c' d hne "", h ""]

end Config

namespace Session

namespace Step

/-- The document that a step opens. -/
def document? : Step → Option Document
  | .document d => some d
  | _ => none

/-- The configuration that a step puts in the place of the old one. -/
def config? : Step → Option Config
  | .settings j => Config.ofSettings? j
  | _ => none

/-- The template that a step chooses for a kind. -/
def template? (kind : CommandKind) : Step → Option String
  | .template k t => if kind = k then some t else none
  | _ => none

/-- A step that leaves no trace: settings without the section, and every question. -/
def Silent : Step → Prop
  | .settings j => Config.ofSettings? j = none
  | .cursor _ _ => True
  | _ => False

end Step

/-! ### The history -/

section

variable {α : Type} (read? : Step → Option α)

/-- What the last step says that says anything. -/
def last? (steps : List Step) : Option α := steps.reverse.findSome? read?

theorem last?_append_singleton (steps : List Step) (step : Step) :
    last? read? (steps ++ [step]) = (read? step).or (last? read? steps) := by
  rw [last?, List.reverse_append, List.reverse_singleton, List.singleton_append,
    List.findSome?_cons, last?]
  cases read? step <;> rfl

end

/-- The document that is open after some steps. -/
def lastDocument (steps : List Step) : Document :=
  (last? Step.document? steps).getD Document.empty

/-- The configuration of the last settings with the section. -/
def lastConfig (steps : List Step) : Config :=
  (last? Step.config? steps).getD Config.standard

/-- The steps behind the last settings with the section. -/
def sinceSettings (steps : List Step) : List Step :=
  steps.rtakeWhile fun step => step.config?.isNone

/-- The last settings, overridden for each kind by its last template since. -/
def effectiveConfig (steps : List Step) : Config :=
  (lastConfig steps).overridden fun kind => last? (Step.template? kind) (sinceSettings steps)

/-- The state that some steps lead to. -/
def run (s : Session) (steps : List Step) : Session := steps.foldl after s

@[simp] theorem run_append (s : Session) (steps more : List Step) :
    s.run (steps ++ more) = (s.run steps).run more := List.foldl_append

theorem sinceSettings_of_config? {step : Step} {c : Config} (h : step.config? = some c)
    (steps : List Step) : sinceSettings (steps ++ [step]) = [] :=
  List.rtakeWhile_concat_neg _ _ _ (by simp [h])

theorem sinceSettings_of_config?_none {step : Step} (h : step.config? = none)
    (steps : List Step) :
    sinceSettings (steps ++ [step]) = sinceSettings steps ++ [step] :=
  List.rtakeWhile_concat_pos _ _ _ (by simp [h])

theorem effectiveConfig_of_config? {step : Step} {c : Config} (h : step.config? = some c)
    (steps : List Step) : effectiveConfig (steps ++ [step]) = c := by
  rw [effectiveConfig, lastConfig, last?_append_singleton, h, sinceSettings_of_config? h]
  exact c.overridden_none

theorem effectiveConfig_of_config?_none {step : Step} (h : step.config? = none)
    (steps : List Step) :
    effectiveConfig (steps ++ [step]) = (lastConfig steps).overridden fun kind =>
      (step.template? kind).or (last? (Step.template? kind) (sinceSettings steps)) := by
  simp only [effectiveConfig, lastConfig, last?_append_singleton, h,
    sinceSettings_of_config?_none h, Option.none_or]

theorem effectiveConfig_of_not_template {step : Step} (hconfig : step.config? = none)
    (htemplate : ∀ kind, step.template? kind = none) (steps : List Step) :
    effectiveConfig (steps ++ [step]) = effectiveConfig steps := by
  rw [effectiveConfig_of_config?_none hconfig, effectiveConfig]
  simp only [htemplate, Option.none_or]

theorem effectiveConfig_template (kind : CommandKind) (template : String) (steps : List Step) :
    effectiveConfig (steps ++ [.template kind template]) =
      (effectiveConfig steps).withTemplate kind template := by
  rw [effectiveConfig_of_config?_none rfl, effectiveConfig, Config.withTemplate_overridden]
  congr 1
  funext k
  rw [Step.template?]
  split <;> rfl

theorem lastDocument_append_singleton (steps : List Step) (step : Step) :
    lastDocument (steps ++ [step]) = step.document?.getD (lastDocument steps) := by
  rw [lastDocument, last?_append_singleton, lastDocument]
  cases step.document? <;> rfl

/-- The state that the history speaks of. -/
def recalled (steps : List Step) : Session := ⟨effectiveConfig steps, lastDocument steps⟩

/-- One more step changes what the history says as it changes the state. -/
theorem recalled_append_singleton (steps : List Step) (step : Step) :
    recalled (steps ++ [step]) = (recalled steps).after step := by
  rw [recalled, lastDocument_append_singleton]
  cases step with
  | settings settings =>
    have hconfig : (Step.settings settings).config? = Config.ofSettings? settings := rfl
    rw [after]
    cases hsettings : Config.ofSettings? settings with
    | some c =>
      rw [effectiveConfig_of_config? (hconfig.trans hsettings)]
      rfl
    | none =>
      rw [effectiveConfig_of_not_template (hconfig.trans hsettings) fun _ => rfl]
      rfl
  | template kind template =>
    rw [effectiveConfig_template]
    rfl
  | document document =>
    rw [effectiveConfig_of_not_template rfl fun _ => rfl]
    rfl
  | cursor kind position =>
    rw [effectiveConfig_of_not_template rfl fun _ => rfl]
    rfl

/-- The running state is what the history says. -/
theorem run_initial (steps : List Step) : initial.run steps = recalled steps := by
  induction steps using List.reverseRecOn with
  | nil => rfl
  | append_singleton steps step ih =>
    rw [recalled_append_singleton, ← ih, run_append]
    rfl

/-! ### Answers -/

theorem answers_append (s : Session) (steps more : List Step) :
    s.answers (steps ++ more) = s.answers steps ++ (s.run steps).answers more := by
  induction steps generalizing s with
  | nil => rfl
  | cons step steps ih =>
    rw [List.cons_append, answers, ih]
    rfl

@[simp] theorem length_answers (s : Session) (steps : List Step) :
    (s.answers steps).length = steps.length := by
  induction steps generalizing s with
  | nil => rfl
  | cons step steps ih => simp [answers, ih]

theorem answers_at (s : Session) (steps : List Step) (step : Step) (rest : List Step) :
    (s.answers (steps ++ step :: rest))[steps.length]? = some ((s.run steps).answer step) := by
  rw [answers_append, List.getElem?_append_right (by simp), length_answers, Nat.sub_self]
  rfl

theorem Step.Silent.after_eq {step : Step} (h : step.Silent) (s : Session) :
    s.after step = s := by
  cases step with
  | settings settings =>
    rw [Session.after, show Config.ofSettings? settings = none from h]
    rfl
  | cursor kind position => rfl
  | _ => exact h.elim

/-- Sessions with one document, whose configurations differ in the template of a kind at most. -/
def AgreeBut (kind : CommandKind) (s s' : Session) : Prop :=
  s.config.AgreeBut kind s'.config ∧ s.document = s'.document

theorem AgreeBut.after {kind : CommandKind} {s s' : Session} (h : s.AgreeBut kind s')
    (step : Step) : (s.after step).AgreeBut kind (s'.after step) := by
  cases step with
  | settings settings =>
    refine ⟨?_, h.2⟩
    intro template
    simp only [Session.after]
    cases Config.ofSettings? settings with
    | none => exact h.1 template
    | some c => rfl
  | template kind' template => exact ⟨h.1.withTemplate kind' template, h.2⟩
  | document document => exact ⟨h.1, rfl⟩
  | cursor kind position => exact h

theorem AgreeBut.run {kind : CommandKind} {s s' : Session} (h : s.AgreeBut kind s')
    (steps : List Step) : (s.run steps).AgreeBut kind (s'.run steps) := by
  induction steps generalizing s s' with
  | nil => exact h
  | cons step steps ih => exact ih (h.after step)

theorem AgreeBut.answer_cursor {kind other : CommandKind} {s s' : Session}
    (h : s.AgreeBut kind s') (hne : other ≠ kind) (position : Position) :
    s.answer (.cursor other position) = s'.answer (.cursor other position) := by
  rw [answer, answer, h.2, h.1.resolve_eq hne]

/-- The answers of a session depend on its history by nothing but the last document, the last
settings with the section and the last template of each kind since then. -/
theorem cursor_answered_by_history (before : List Step) :
    (∀ kind position rest,
      (initial.answers (before ++ .cursor kind position :: rest))[before.length]? =
        some (.command
          (resolve (effectiveConfig before) (lastDocument before) kind position))) ∧
    (∀ step, step.Silent → ∀ rest,
      (initial.answers (before ++ step :: rest)).eraseIdx before.length =
        initial.answers (before ++ rest)) ∧
    (∀ kind template between other position rest, other ≠ kind →
      (initial.answers (before ++ .template kind template :: between ++
          .cursor other position :: rest))[before.length + 1 + between.length]? =
        (initial.answers (before ++ between ++
          .cursor other position :: rest))[before.length + between.length]?) := by
  refine ⟨?_, ?_, ?_⟩
  · intro kind position rest
    rw [answers_at, run_initial]
    rfl
  · intro step hsilent rest
    rw [answers_append, answers_append, answers, hsilent.after_eq,
      List.eraseIdx_append_of_length_le (by simp), length_answers, Nat.sub_self,
      List.eraseIdx_zero, List.tail_cons]
  · intro kind template between other position rest hne
    have hagree : (initial.run (before ++ .template kind template :: between)).AgreeBut kind
        (initial.run (before ++ between)) := by
      rw [run_append, run_append]
      exact AgreeBut.run (s := (initial.run before).after (.template kind template))
        ⟨Config.agreeBut_withTemplate _ kind template, rfl⟩ between
    have hwith := answers_at initial (before ++ .template kind template :: between)
      (.cursor other position) rest
    have hwithout := answers_at initial (before ++ between) (.cursor other position) rest
    rw [List.length_append, List.length_cons, Nat.add_comm between.length, ← Nat.add_assoc]
      at hwith
    rw [List.length_append] at hwithout
    rw [hwith, hwithout, hagree.answer_cursor hne]

/-- Settings without the section do not take an override back, and the other kind does not see one
that is empty. -/
theorem cursor_answered_by_kept_template :
    let chosen : List Step :=
      [.settings (.object [("runCurrentTest.run", .string "jest")]), .template .run "npx",
        .settings (.object [("editor.tabSize", .null)])]
    let d : Document := ⟨"/w", "/w/a.ts", "it()", Node.empty⟩
    let cursor : Step := .cursor .run ⟨0, 0⟩
    effectiveConfig chosen = { Config.standard with run := some "npx" } ∧
      (initial.answers (chosen ++ .cursor .run ⟨0, 0⟩ :: []))[3]? =
        some (.command (resolve (effectiveConfig chosen) Document.empty .run ⟨0, 0⟩)) ∧
      Step.Silent (.settings .null) ∧
      (initial.answers (chosen ++ .settings .null :: [.document d, cursor])).eraseIdx 3 =
        initial.answers (chosen ++ [.document d, cursor]) ∧
      CommandKind.run ≠ .runAndUpdateSnapshots ∧
      (initial.answers (chosen ++ .template .runAndUpdateSnapshots "" :: [.document d] ++
        cursor :: []))[5]? = (initial.answers (chosen ++ [.document d] ++ cursor :: []))[4]? := by
  intro chosen d cursor
  have hspec := cursor_answered_by_history chosen
  have hsilent : Step.Silent (.settings .null) := rfl
  have hne : CommandKind.run ≠ .runAndUpdateSnapshots := by decide
  exact ⟨by decide +kernel, hspec.1 .run ⟨0, 0⟩ [], hsilent, hspec.2.1 _ hsilent _, hne,
    hspec.2.2 .runAndUpdateSnapshots "" [.document d] .run ⟨0, 0⟩ [] hne⟩

end Session

end CursorCommand
