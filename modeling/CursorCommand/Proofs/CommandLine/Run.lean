import CursorCommand.Proofs.CommandLine.Arguments
import CursorCommand.Proofs.CommandLine.Setup

/-!
# How a run ends

A run goes through its stages in order and stops at the first that fails. `Fails` says for every
stage by itself what is wrong with it, without regard to the others, and `FirstFailure` puts them in
order; `Prints` says what a run prints in which nothing fails.
-/
namespace CursorCommand

namespace CommandLine

/-- What may be wrong with a run that names a file. -/
inductive Stage where
  | file
  | settings
  | positionals
  | line
  | character
  | template
  | position
  deriving DecidableEq, Repr

/-- The stages of a run, in order. A listing of blocks does not look for a cursor. -/
def stages (o : Options) : List Stage :=
  .file :: .settings ::
    if o.blocks then [] else [.positionals, .line, .character, .template, .position]

section

variable (m : Machine) (o : Options) (file : String) (others : List String)

/-- What is wrong at a stage, and what is said about it. -/
inductive Fails : Stage → String → Prop
  | file {path : String} : Absolute m.directory file path → m.text? path = none →
      Fails .file ("Failed to read " ++ path)
  | unreadable {name path : String} : o.config = some name → Absolute m.directory name path →
      m.text? path = none → Fails .settings ("Failed to read settings file " ++ name)
  | invalid {name path text : String} : o.config = some name → Absolute m.directory name path →
      m.text? path = some text → Json.parse? text = none →
      Fails .settings ("Failed to parse settings file " ++ name)
  | positionals : others.length ≠ 2 → Fails .positionals "Expected <FILE> <LINE> <CHARACTER>"
  | line {text : String} : others[0]? = some text → (∀ n, ¬ Denotes text n) →
      Fails .line ("Invalid line '" ++ text ++ "'")
  | character {text : String} : others[1]? = some text → (∀ n, ¬ Denotes text n) →
      Fails .character ("Invalid character '" ++ text ++ "'")
  | template {k : CommandKind} {c : Config} {template : Option String} : Prepared m o k c →
      c.Holds k template → template = none ∨ template = some "" →
      Fails .template ("Please set " ++ k.setting ++ " to your test command first")
  | position {d : Document} {lines : List Line} {line character : String} {l c : UInt32} :
      Opened m o file d → others[0]? = some line → Denotes line l →
      others[1]? = some character → Denotes character c →
      Line.Broken lines → d.text.toList = Line.join lines → lines.length ≤ l.toNat →
      Fails .position ("Position " ++ toString l.toNat ++ ":" ++ toString c.toNat ++
        " is outside " ++ d.testFilePath)

/-- What is said about the first stage that fails. -/
inductive FirstFailure : List Stage → String → Prop
  | here {s : Stage} {ss : List Stage} {message : String} :
      Fails m o file others s message → FirstFailure (s :: ss) message
  | later {s : Stage} {ss : List Stage} {message : String} :
      (∀ message', ¬ Fails m o file others s message') → FirstFailure ss message →
      FirstFailure (s :: ss) message

/-- What a run prints in which nothing fails. -/
inductive Prints : String → Prop
  | blocks {d : Document} {c : Config} : o.blocks = true → Opened m o file d →
      Configured m o c →
      Prints ((Json.array ((Block.extract d.text c.identifiers d.tree).map
        Block.toJson)).prettyText ++ "\n")
  | command {d : Document} {line character command : String} {k : CommandKind} {c : Config}
      {position : Position} :
      o.blocks = false → Opened m o file d → Prepared m o k c → others = [line, character] →
      Denotes line position.line → Denotes character position.character →
      resolve c d k position = .ok command → Prints (command ++ "\n")

end

/-- How a run ends whose arguments read in some way. -/
inductive Ends (m : Machine) : Reading → Outcome → Prop
  | version {units : List ArgumentUnit} {rest : List String} :
      Ends m ⟨units, .version rest⟩ ⟨0, "current-test 0.1.0\n", none⟩
  | help {units : List ArgumentUnit} {rest : List String} :
      Ends m ⟨units, .help rest⟩ ⟨0, usageText, none⟩
  | missingValue {units : List ArgumentUnit} {option : ValueOption} :
      Ends m ⟨units, .missingValue option⟩
        ⟨1, "", some ("Error: Missing value for '" ++ option.spelling ++ "'")⟩
  | unknown {units : List ArgumentUnit} {text : String} {dashed : Dashed text}
      {other : text ∉ knownOptions} {rest : List String} :
      Ends m ⟨units, .unknown text dashed other rest⟩
        ⟨1, "", some ("Error: Unknown argument: '" ++ text ++ "'")⟩
  | noFile {units : List ArgumentUnit} : (Options.ofUnits units).positionals = [] →
      Ends m ⟨units, .all⟩ ⟨0, usageText, none⟩
  | failed {units : List ArgumentUnit} {o : Options} {file message : String}
      {others : List String} : Options.ofUnits units = o → o.positionals = file :: others →
      FirstFailure m o file others (stages o) message →
      Ends m ⟨units, .all⟩ ⟨1, "", some ("Error: " ++ message)⟩
  | printed {units : List ArgumentUnit} {o : Options} {file text : String}
      {others : List String} : Options.ofUnits units = o → o.positionals = file :: others →
      (∀ s ∈ stages o, ∀ message, ¬ Fails m o file others s message) →
      Prints m o file others text →
      Ends m ⟨units, .all⟩ ⟨0, text, none⟩

section

variable {m : Machine} {o : Options} {file : String} {others : List String}

/-! ### The stages one by one -/

/-- Nothing is wrong at a stage. -/
def Passes (m : Machine) (o : Options) (file : String) (others : List String) (s : Stage) : Prop :=
  ∀ message, ¬ Fails m o file others s message

theorem passes_file {text : String} (h : m.text? (absolute m.directory file) = some text) :
    Passes m o file others .file := by
  intro message hfails
  cases hfails with
  | file hpath hnone =>
    rw [← absolute_iff.mp hpath, h] at hnone
    cases hnone

theorem fails_settings {e : Failure} (h : config m o = .error e) :
    Fails m o file others .settings e.message := by
  cases hname : o.config with
  | none =>
    rw [config, hname] at h
    cases h
  | some name =>
    have hpath : Absolute m.directory name (absolute m.directory name) := absolute_iff.mpr rfl
    rw [config_named hname] at h
    split at h
    · next htext =>
      cases h
      exact .unreadable hname hpath htext
    · next text htext =>
      split at h
      · next hparse =>
        cases h
        exact .invalid hname hpath htext hparse
      · cases h

theorem passes_settings {c : Config} (h : Configured m o c) :
    Passes m o file others .settings := by
  intro message hfails
  cases hfails with
  | unreadable hname hpath hnone =>
    cases h with
    | standard hstandard => cases hstandard.symm.trans hname
    | file hname' hpath' htext _ =>
      cases hname.symm.trans hname'
      rw [← absolute_iff.mp hpath, absolute_iff.mp hpath', htext] at hnone
      cases hnone
  | invalid hname hpath htext hinvalid =>
    cases h with
    | standard hstandard => cases hstandard.symm.trans hname
    | file hname' hpath' htext' hparse =>
      cases hname.symm.trans hname'
      rw [← absolute_iff.mp hpath, absolute_iff.mp hpath'] at htext
      cases htext'.symm.trans htext
      cases hparse.symm.trans hinvalid

theorem passes_positionals {line character : String} :
    Passes m o file [line, character] .positionals := by
  intro message hfails
  cases hfails with
  | positionals hlength => exact hlength rfl

theorem passes_line {line : String} {l : UInt32} (h : Denotes line l)
    (hline : others[0]? = some line) : Passes m o file others .line := by
  intro message hfails
  cases hfails with
  | line htext hnone =>
    cases hline.symm.trans htext
    exact hnone l h

theorem passes_character {character : String} {c : UInt32} (h : Denotes character c)
    (hcharacter : others[1]? = some character) : Passes m o file others .character := by
  intro message hfails
  cases hfails with
  | character htext hnone =>
    cases hcharacter.symm.trans htext
    exact hnone c h

theorem passes_template {c : Config} {template : String} (h : Configured m o c)
    (htemplate : (withCommand c o).template? (kind o) = some template) :
    Passes m o file others .template := by
  intro message hfails
  cases hfails with
  | template hprepared hholds hmissing =>
    obtain ⟨rfl, rfl⟩ := hprepared.eq h
    rw [Config.template?_eq_some_iff, Config.holds_iff.mp hholds] at htemplate
    rcases hmissing with rfl | rfl
    · cases htemplate.1
    · exact htemplate.2 (Option.some.inj htemplate.1).symm

theorem fails_template {c : Config} (h : Configured m o c)
    (htemplate : (withCommand c o).template? (kind o) = none) :
    Fails m o file others .template (ResolveError.noTemplate (kind o)).message := by
  rw [ResolveError.message_noTemplate]
  exact .template h.prepared (Config.holds_iff.mpr rfl) (Config.template?_eq_none_iff.mp htemplate)

theorem passes_position {line character text : String} {position : Position}
    (htext : m.text? (absolute m.directory file) = some text)
    (hline : Denotes line position.line)
    (hin : position.line.toNat < (Line.split text.toList).length) :
    Passes m o file [line, character] .position := by
  intro message hfails
  cases hfails with
  | position hopened hline' hl _ _ hbroken hjoin hout =>
    cases htext.symm.trans hopened.eq.1
    cases hline'
    rw [hl.unique hline, ← hbroken.split_join, ← hjoin] at hout
    omega

/-! ### The stages in order -/

theorem Fails.unique {s : Stage} {message message' : String}
    (h : Fails m o file others s message) (h' : Fails m o file others s message') :
    message = message' := by
  cases h with
  | file hpath _ =>
    cases h' with
    | file hpath' _ => rw [hpath.unique hpath']
  | unreadable hname hpath hnone =>
    cases h' with
    | unreadable hname' _ _ => cases hname.symm.trans hname'; rfl
    | invalid hname' hpath' htext' _ =>
      cases hname.symm.trans hname'
      cases hpath.unique hpath'
      cases hnone.symm.trans htext'
  | invalid hname hpath htext _ =>
    cases h' with
    | unreadable hname' hpath' hnone' =>
      cases hname.symm.trans hname'
      cases hpath.unique hpath'
      cases htext.symm.trans hnone'
    | invalid hname' _ _ _ => cases hname.symm.trans hname'; rfl
  | positionals _ => cases h'; rfl
  | line htext _ =>
    cases h' with
    | line htext' _ => cases htext.symm.trans htext'; rfl
  | character htext _ =>
    cases h' with
    | character htext' _ => cases htext.symm.trans htext'; rfl
  | template hprepared _ _ =>
    cases h' with
    | template hprepared' _ _ => rw [(hprepared.unique hprepared').1]
  | position hopened hline hl hcharacter hc _ _ _ =>
    cases h' with
    | position hopened' hline' hl' hcharacter' hc' _ _ _ =>
      cases hline.symm.trans hline'
      cases hcharacter.symm.trans hcharacter'
      rw [hopened.unique hopened', hl.unique hl', hc.unique hc']

theorem FirstFailure.unique {ss : List Stage} {message message' : String}
    (h : FirstFailure m o file others ss message) (h' : FirstFailure m o file others ss message') :
    message = message' := by
  induction h with
  | here hfails =>
    cases h' with
    | here hfails' => exact hfails.unique hfails'
    | later hpasses _ => exact (hpasses _ hfails).elim
  | later hpasses _ ih =>
    cases h' with
    | here hfails' => exact (hpasses _ hfails').elim
    | later _ hrest => exact ih hrest

theorem FirstFailure.not_passes {ss : List Stage} {message : String}
    (h : FirstFailure m o file others ss message) :
    ¬ ∀ s ∈ ss, Passes m o file others s := by
  intro hpasses
  induction h with
  | here hfails => exact hpasses _ List.mem_cons_self _ hfails
  | later _ _ ih => exact ih fun s hs => hpasses s (List.mem_cons_of_mem _ hs)

theorem Prints.unique {text text' : String} (h : Prints m o file others text)
    (h' : Prints m o file others text') : text = text' := by
  cases h with
  | blocks hblocks hopened hc =>
    cases h' with
    | blocks _ hopened' hc' => rw [hopened.unique hopened', hc.unique hc']
    | command hblocks' _ _ _ _ _ _ => cases hblocks.symm.trans hblocks'
  | @command _ _ _ _ _ _ position hblocks hopened hprepared hothers hl hcharacter hcommand =>
    cases h' with
    | blocks hblocks' _ _ => cases hblocks.symm.trans hblocks'
    | @command _ _ _ _ _ _ position' _ hopened' hprepared' hothers' hl' hcharacter' hcommand' =>
      obtain rfl := hopened.unique hopened'
      obtain ⟨rfl, rfl⟩ := hprepared.unique hprepared'
      cases hothers.symm.trans hothers'
      have hposition : position = position' := by
        rcases position with ⟨line, character⟩
        rcases position' with ⟨line', character'⟩
        exact Position.mk.injEq _ _ _ _ ▸ ⟨hl.unique hl', hcharacter.unique hcharacter'⟩
      subst hposition
      cases hcommand.symm.trans hcommand'
      rfl

theorem Ends.unique {r : Reading} {a b : Outcome} (ha : Ends m r a) (hb : Ends m r b) :
    a = b := by
  cases ha with
  | version => cases hb; rfl
  | help => cases hb; rfl
  | missingValue => cases hb; rfl
  | unknown => cases hb; rfl
  | noFile hnone =>
    cases hb with
    | noFile _ => rfl
    | failed hunits hfile _ => simp [← hunits, hnone] at hfile
    | printed hunits hfile _ _ => simp [← hunits, hnone] at hfile
  | failed hunits hfile hfirst =>
    subst hunits
    cases hb with
    | noFile hnone => simp [hnone] at hfile
    | failed hunits' hfile' hfirst' =>
      subst hunits'
      cases hfile.symm.trans hfile'
      rw [hfirst.unique hfirst']
    | printed hunits' hfile' hpasses _ =>
      subst hunits'
      cases hfile.symm.trans hfile'
      exact (hfirst.not_passes hpasses).elim
  | printed hunits hfile hpasses hprints =>
    subst hunits
    cases hb with
    | noFile hnone => simp [hnone] at hfile
    | failed hunits' hfile' hfirst =>
      subst hunits'
      cases hfile.symm.trans hfile'
      exact (hfirst.not_passes hpasses).elim
    | printed hunits' hfile' _ hprints' =>
      subst hunits'
      cases hfile.symm.trans hfile'
      rw [hprints.unique hprints']

/-! ### What a run computes -/

theorem resolveFile_eq (m : Machine) (o : Options) (file : String) (others : List String) :
    resolveFile m o file others =
      match m.text? (absolute m.directory file) with
      | none => .error (.unreadable (absolute m.directory file))
      | some text =>
        match config m o with
        | .error e => .error e
        | .ok c =>
          if o.blocks then .ok (listing (document m o file text) c)
          else
            match cursor others with
            | .error e => .error e
            | .ok position =>
              match resolve (withCommand c o) (document m o file text) (kind o) position with
              | .error e => .error (.resolve e)
              | .ok command => .ok (command ++ "\n") := by
  rw [resolveFile]
  cases m.text? (absolute m.directory file) with
  | none => rfl
  | some text =>
    cases config m o with
    | error e => rfl
    | ok c =>
      cases o.blocks with
      | true => rfl
      | false =>
        cases cursor others with
        | error e => rfl
        | ok position =>
          simp only [bind, Except.bind, pure, Except.pure]
          rw [document]
          cases resolve (withCommand c o) _ (kind o) position with
          | error e => rfl
          | ok command => rfl

theorem cursor_of_length_ne (h : others.length ≠ 2) : cursor others = .error .positionals := by
  match others with
  | [] => rfl
  | [_] => rfl
  | [_, _] => exact (h rfl).elim
  | _ :: _ :: _ :: _ => rfl

theorem cursor_pair (line character : String) :
    cursor [line, character] =
      match number? line with
      | none => .error (.line line)
      | some l =>
        match number? character with
        | none => .error (.character character)
        | some c => .ok ⟨l, c⟩ := by
  rw [cursor]
  cases number? line with
  | none => rfl
  | some l => cases number? character <;> rfl

/-- A result is what some stages lead to: the error of the first that fails, or what is printed. -/
inductive Follows (m : Machine) (o : Options) (file : String) (others : List String) :
    List Stage → Except Failure String → Prop
  | stop {s : Stage} {ss : List Stage} {e : Failure} :
      Fails m o file others s e.message → Follows m o file others (s :: ss) (.error e)
  | pass {s : Stage} {ss : List Stage} {result : Except Failure String} :
      Passes m o file others s → Follows m o file others ss result →
      Follows m o file others (s :: ss) result
  | print {text : String} : Prints m o file others text → Follows m o file others [] (.ok text)

theorem Follows.firstFailure {ss : List Stage} {e : Failure}
    (h : Follows m o file others ss (.error e)) : FirstFailure m o file others ss e.message := by
  generalize hresult : Except.error e = result at h
  induction h with
  | stop hfails =>
    cases hresult
    exact .here hfails
  | pass hpasses _ ih => exact .later hpasses (ih hresult)
  | print _ => cases hresult

theorem Follows.prints {ss : List Stage} {text : String}
    (h : Follows m o file others ss (.ok text)) :
    (∀ s ∈ ss, Passes m o file others s) ∧ Prints m o file others text := by
  generalize hresult : Except.ok text = result at h
  induction h with
  | stop _ => cases hresult
  | pass hpasses _ ih =>
    obtain ⟨hrest, hprints⟩ := ih hresult
    exact ⟨List.forall_mem_cons.mpr ⟨hpasses, hrest⟩, hprints⟩
  | print hprints =>
    cases hresult
    exact ⟨by simp, hprints⟩

theorem follows_resolve {line character text : String} {c : Config} {position : Position}
    (hblocks : o.blocks = false) (htext : m.text? (absolute m.directory file) = some text)
    (hc : Configured m o c) (hl : Denotes line position.line)
    (hcharacter : Denotes character position.character) :
    Follows m o file [line, character] [.template, .position]
      (match resolve (withCommand c o) (document m o file text) (kind o) position with
        | .error e => .error (.resolve e)
        | .ok command => .ok (command ++ "\n")) := by
  cases htemplate : (withCommand c o).template? (kind o) with
  | none =>
    rw [resolve, htemplate]
    exact .stop (fails_template hc htemplate)
  | some template =>
    have hptemplate : Passes m o file [line, character] .template := passes_template hc htemplate
    have hbroken := Line.broken_split text.toList
    have hjoin : (document m o file text).text.toList = Line.join (Line.split text.toList) :=
      (Line.join_split text.toList).symm
    by_cases hin : position.line.toNat < (Line.split text.toList).length
    · obtain ⟨offset, -, hresolve⟩ := resolve_eq_ok hbroken hjoin htemplate hin
      rw [hresolve]
      exact .pass hptemplate (.pass (passes_position htext hl hin)
        (.print (.command hblocks (opened_document htext) hc.prepared rfl hl hcharacter hresolve)))
    · have hout := Nat.not_lt.mp hin
      have hresolve : resolve (withCommand c o) (document m o file text) (kind o) position =
          .error (.outside position (absolute m.directory file)) :=
        (resolve_eq_outside_iff hbroken hjoin htemplate).mpr hout
      rw [hresolve]
      exact .pass hptemplate (.stop (.position (opened_document htext) rfl hl rfl hcharacter hbroken
        hjoin hout))

theorem follows_cursor {text : String} {c : Config} (hblocks : o.blocks = false)
    (htext : m.text? (absolute m.directory file) = some text) (hc : Configured m o c) :
    Follows m o file others [.positionals, .line, .character, .template, .position]
      (match cursor others with
        | .error e => .error e
        | .ok position =>
          match resolve (withCommand c o) (document m o file text) (kind o) position with
          | .error e => .error (.resolve e)
          | .ok command => .ok (command ++ "\n")) := by
  by_cases hlength : others.length = 2
  · obtain ⟨line, character, rfl⟩ := List.length_eq_two.mp hlength
    apply Follows.pass passes_positionals
    rw [cursor_pair]
    cases hline : number? line with
    | none => exact .stop (.line rfl (not_denotes hline))
    | some l =>
      have hl := number?_eq_some_iff.mp hline
      apply Follows.pass (passes_line hl rfl)
      cases hcharacter : number? character with
      | none => exact .stop (.character rfl (not_denotes hcharacter))
      | some n =>
        have hn := number?_eq_some_iff.mp hcharacter
        apply Follows.pass (passes_character hn rfl)
        exact follows_resolve hblocks htext hc hl hn
  · rw [cursor_of_length_ne hlength]
    exact .stop (.positionals hlength)

theorem follows_resolveFile (m : Machine) (o : Options) (file : String) (others : List String) :
    Follows m o file others (stages o) (resolveFile m o file others) := by
  rw [resolveFile_eq, stages]
  -- The tests of the program come in the order of the stages: each stops the run or is passed.
  cases htext : m.text? (absolute m.directory file) with
  | none => exact .stop (.file (absolute_iff.mpr rfl) htext)
  | some text =>
    apply Follows.pass (passes_file htext)
    cases hconfig : config m o with
    | error e => exact .stop (fails_settings hconfig)
    | ok c =>
      have hc := configured_iff.mpr hconfig
      apply Follows.pass (passes_settings hc)
      cases hblocks : o.blocks with
      | true => exact .print (.blocks hblocks (opened_document htext) hc)
      | false => exact follows_cursor hblocks htext hc

/-- A run that names a file ends as its stages say. -/
theorem ends_resolveFile {units : List ArgumentUnit} (hunits : Options.ofUnits units = o)
    (hfile : o.positionals = file :: others) :
    Ends m ⟨units, .all⟩ (Outcome.ofResult (resolveFile m o file others)) := by
  have hfollows := follows_resolveFile m o file others
  cases hresult : resolveFile m o file others with
  | error e =>
    rw [hresult] at hfollows
    exact .failed hunits hfile hfollows.firstFailure
  | ok text =>
    rw [hresult] at hfollows
    obtain ⟨hpasses, hprints⟩ := hfollows.prints
    exact .printed hunits hfile hpasses hprints

theorem ends_run (m : Machine) (r : Reading) :
    Ends m r (Outcome.ofResult (run m r.texts)) := by
  rcases r with ⟨units, last⟩
  rw [run, Reading.texts, Options.scan_units]
  cases last with
  | all =>
    simp only [ArgumentEnd.texts, Options.scan]
    cases hfile : (Options.ofUnits units).positionals with
    | nil => exact .noFile hfile
    | cons file others => exact ends_resolveFile rfl hfile
  | version rest => exact .version
  | help rest => exact .help
  | missingValue option =>
    simp only [ArgumentEnd.texts, Options.scan, Argument.ofText_spelling]
    cases option <;> exact .missingValue
  | unknown text dashed other rest =>
    simp only [ArgumentEnd.texts, Options.scan, Argument.ofText_of_dashed dashed other]
    exact .unknown

/-- A run ends in the one way that its arguments and the first stage that fails allow. -/
theorem run_ends_at_first_failure (m : Machine) (args : List String) :
    ∃ r : Reading, (∀ r' : Reading, r'.texts = args ↔ r' = r) ∧
      ∀ outcome, Ends m r outcome ↔ outcome = Outcome.ofResult (run m args) := by
  obtain ⟨r, rfl⟩ := Reading.exists_texts_eq args
  refine ⟨r, ?_, ?_⟩
  · intro r'
    exact ⟨Reading.texts_inj, congrArg Reading.texts⟩
  · intro outcome
    constructor
    · intro h
      exact h.unique (ends_run m r)
    · rintro rfl
      exact ends_run m r

/-- A flag, a workspace beside the working directory and a template behind the flag. -/
theorem run_ends_with_snapshots :
    let m : Machine :=
      ⟨"/w", fun path => if path = "/w/a.ts" then some "it()" else none, fun _ => Node.empty⟩
    ∃ r : Reading, r.texts = ["--workspace", "p", "--update-snapshots", "--command",
        "x ${workspaceRoot} ${testName}", "a.ts", "0", "+3"] ∧
      Ends m r ⟨0, "x /w/p .*\n", none⟩ := by
  intro m
  obtain ⟨r, hreading, hends⟩ := run_ends_at_first_failure m ["--workspace", "p",
    "--update-snapshots", "--command", "x ${workspaceRoot} ${testName}", "a.ts", "0", "+3"]
  exact ⟨r, (hreading r).mpr rfl, (hends _).mpr (by decide +kernel)⟩

end

end CommandLine

end CursorCommand
