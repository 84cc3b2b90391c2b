import CursorCommand.Document
import CursorCommand.Proofs.Block.Innermost
import CursorCommand.Proofs.Template
import CursorCommand.Proofs.Text.Layout

/-!
# The command for a cursor, by spans

What a cursor's command is, said in terms of the lines of the text and of the flat list of blocks
and their spans: which of two errors comes first, when there is none, and which names the titles of
a command are made of.
-/
namespace CursorCommand

/-- The setting of a kind of command, as the user knows it. -/
def CommandKind.setting : CommandKind → String
  | .run => "runCurrentTest.run"
  | .runAndUpdateSnapshots => "runCurrentTest.runAndUpdateSnapshots"

/-- The template that a configuration has for a kind, if any. -/
inductive Config.Holds (c : Config) : CommandKind → Option String → Prop
  | run : Holds c .run c.run
  | runAndUpdateSnapshots : Holds c .runAndUpdateSnapshots c.runAndUpdateSnapshots

theorem Config.holds_iff {c : Config} {kind : CommandKind} {template : Option String} :
    c.Holds kind template ↔ c.chosen kind = template := by
  constructor
  · intro h
    cases h <;> rfl
  · rintro rfl
    cases kind
    · exact .run
    · exact .runAndUpdateSnapshots

theorem ResolveError.message_noTemplate (kind : CommandKind) :
    (noTemplate kind).message =
      "Please set " ++ kind.setting ++ " to your test command first" := by
  cases kind <;> rfl

theorem ResolveError.message_outside (cursor : Position) (testFilePath : String) :
    (outside cursor testFilePath).message =
      "Position " ++ toString cursor.line.toNat ++ ":" ++ toString cursor.character.toNat ++
        " is outside " ++ testFilePath := rfl

theorem Config.template?_eq_none_iff {config : Config} {kind : CommandKind} :
    config.template? kind = none ↔ config.chosen kind = none ∨ config.chosen kind = some "" := by
  rw [Config.template?]
  cases config.chosen kind with
  | none => simp
  | some template => simp [Option.filter]

theorem Config.template?_eq_some_iff {config : Config} {kind : CommandKind} {template : String} :
    config.template? kind = some template ↔
      config.chosen kind = some template ∧ template ≠ "" := by
  simp [Config.template?, Option.filter_eq_some_iff]

namespace Block

/-- The blocks of a list that the span of a block lies inside. -/
def around (blocks : List Block) (b : Block) : List Block :=
  blocks.filter fun c => c.start ≤ b.start ∧ b.stop ≤ c.stop

theorem around_eq (blocks : List Block) (b : Block) :
    around blocks b = blocks.filter (b.Within ·) :=
  List.filter_congr fun _ _ => decide_eq_decide.mpr Iff.rfl

/-- The block at an index is the one that is found for an offset: its span contains the offset, and
that of no other block around the offset is narrower. -/
structure Current (blocks : List Block) (offset : Nat) (b : Block) (index : Nat) : Prop where
  found : enclosingIdx? blocks offset = some (b, index)
  get : blocks[index]? = some b
  start_le : b.start ≤ offset
  le_stop : offset ≤ b.stop
  narrowest : ∀ c ∈ blocks, c.start ≤ offset → offset ≤ c.stop → b.start ≤ c.start →
    c.stop ≤ b.stop → c.start = b.start ∧ c.stop = b.stop

theorem exists_current {blocks : List Block} {offset : Nat}
    (h : ∃ b ∈ blocks, b.start ≤ offset ∧ offset ≤ b.stop) :
    ∃ b index, Current blocks offset b index := by
  obtain ⟨b, index, hfound, hinner⟩ := exists_innermost h
  refine ⟨b, index, hfound, hinner.get, hinner.contains.1, hinner.contains.2, ?_⟩
  intro c hc hstart hstop hbc hcb
  obtain ⟨i, hi⟩ := List.getElem?_of_mem hc
  by_cases hindex : i = index
  · subst hindex
    obtain rfl := Option.some.inj (hi.symm.trans hinner.get)
    exact ⟨rfl, rfl⟩
  · exact (hinner.last i c hi ⟨hstart, hstop⟩ ⟨hbc, hcb⟩ hindex).1

end Block

namespace Document

variable {config : Config} {d : Document}

/-- The titles of a command for the block at an index: the full title is made of the names of the
earlier blocks that it lies inside and of its own, and it lies inside no other block. -/
structure TitledBy (config : Config) (blocks : List Block) (value : Placeholder → String)
    (b : Block) (index : Nat) : Prop where
  titles : HasTitles value config.separator config.unknown
    ((Block.around (blocks.take index) b).map Block.name) b.name
  around : Block.around blocks b = Block.around (blocks.take index) b ++ [b]

/-- The values of the placeholders for a cursor at an offset of a document with some blocks. -/
structure Inserts (config : Config) (d : Document) (blocks : List Block) (offset : Nat)
    (value : Placeholder → String) : Prop where
  paths : HasPaths value config.unixPaths d.workspaceRoot d.testFilePath
  outside : (∀ b ∈ blocks, ¬ (b.start ≤ offset ∧ offset ≤ b.stop)) →
    value .testName = config.unknown ∧ value .fullTestName = config.unknown
  inside : (∃ b ∈ blocks, b.start ≤ offset ∧ offset ≤ b.stop) →
    ∃ b index, Block.Current blocks offset b index ∧ TitledBy config blocks value b index

theorem titledBy_enclosing {blocks : List Block} {offset index : Nat} {b : Block}
    (hlam : Block.Laminar blocks)
    (hfound : Block.enclosingIdx? blocks offset = some (b, index)) :
    TitledBy config blocks (d.target config (some b)).value b index := by
  obtain ⟨before, after, hsplit, hindex, hwithin⟩ := hlam.filter_within_enclosing hfound
  have htake : blocks.take index = before := by
    rw [hsplit, ← hindex, List.take_left]
  -- The titles come from the parents of the block, which the walk wrote down.
  have hparents : b.parents = (Block.around before b).map Block.name := by
    rw [Block.around_eq, hlam.parents before b after hsplit]
  rw [← htake] at hparents hwithin
  refine ⟨hparents ▸ hasTitles_value (d.target config (some b)) rfl, ?_⟩
  rw [Block.around_eq, Block.around_eq, hwithin]

theorem inserts_enclosing {blocks : List Block} (hlam : Block.Laminar blocks) (offset : Nat) :
    d.Inserts config blocks offset
      (d.target config (Block.enclosing? blocks offset)).value where
  paths := hasPaths_value (d.target config (Block.enclosing? blocks offset))
  outside := by
    intro hout
    rw [Block.enclosing?, Block.enclosingIdx?_eq_none_iff.mpr hout]
    exact ⟨rfl, rfl⟩
  inside := by
    intro hin
    obtain ⟨b, index, hcurrent⟩ := Block.exists_current hin
    rw [Block.enclosing?, hcurrent.found]
    exact ⟨b, index, hcurrent, titledBy_enclosing hlam hcurrent.found⟩

end Document

section

variable {config : Config} {d : Document} {kind : CommandKind} {cursor : Position}
  {template : String}

theorem resolve_eq_noTemplate_iff :
    resolve config d kind cursor = .error (.noTemplate kind) ↔
      config.chosen kind = none ∨ config.chosen kind = some "" := by
  rw [← Config.template?_eq_none_iff, resolve]
  cases config.template? kind with
  | none => simp
  | some template => cases cursor.offset? d.text <;> simp

variable {lines : List Line} (hlines : Line.Broken lines) (htext : d.text.toList = Line.join lines)

include hlines htext

theorem resolve_eq_outside_iff (h : config.template? kind = some template) :
    resolve config d kind cursor = .error (.outside cursor d.testFilePath) ↔
      lines.length ≤ cursor.line.toNat := by
  have hnone : cursor.offset? d.text = none ↔ lines.length ≤ cursor.line.toNat := by
    rw [Position.offset?_eq_of_join hlines htext, Line.offset?_eq_none_iff]
  rw [← hnone, resolve, h]
  cases cursor.offset? d.text <;> simp

theorem resolve_eq_ok (h : config.template? kind = some template)
    (hline : cursor.line.toNat < lines.length) :
    ∃ offset, cursor.At lines offset ∧
      resolve config d kind cursor = .ok (Template.fill (d.target config
        (Block.enclosing? (d.blocks config.identifiers) offset)).value template) := by
  obtain ⟨offset, hoffset, hat⟩ := Position.exists_at hlines htext hline
  refine ⟨offset, hat, ?_⟩
  rw [resolve, h, hoffset]
  rfl

end

/-- The command for a cursor: a missing template is reported first, then a line past the last, and
otherwise the template is filled with titles that are read off the spans of the blocks. -/
theorem resolve_by_span (config : Config) (d : Document) (kind : CommandKind) (cursor : Position)
    (h : d.tree.Nested) (hids : "" ∉ config.identifiers) :
    let blocks := Block.extract d.text config.identifiers d.tree
    let result := resolve config d kind cursor
    (ResolveError.noTemplate kind).message =
      "Please set " ++ kind.setting ++ " to your test command first" ∧
    (ResolveError.outside cursor d.testFilePath).message =
      "Position " ++ toString cursor.line.toNat ++ ":" ++ toString cursor.character.toNat ++
        " is outside " ++ d.testFilePath ∧
    (result = .error (.noTemplate kind) ↔
      ∃ template, config.Holds kind template ∧ (template = none ∨ template = some "")) ∧
    ∃ lines, Line.Broken lines ∧ d.text.toList = Line.join lines ∧
      ∀ template, config.Holds kind (some template) → template ≠ "" →
        (result = .error (.outside cursor d.testFilePath) ↔
          lines.length ≤ cursor.line.toNat) ∧
        (cursor.line.toNat < lines.length →
          ∃ offset value command, cursor.At lines offset ∧ result = .ok command ∧
            Template.Filled value template command ∧ d.Inserts config blocks offset value) := by
  intro blocks result
  have hlam : Block.Laminar blocks := h.laminar d.text hids
  have hlines : Line.Broken (Line.split d.text.toList) := Line.broken_split d.text.toList
  have htext : d.text.toList = Line.join (Line.split d.text.toList) :=
    (Line.join_split d.text.toList).symm
  refine ⟨ResolveError.message_noTemplate kind, ResolveError.message_outside cursor _, ?_,
    _, hlines, htext, ?_⟩
  · rw [resolve_eq_noTemplate_iff]
    simp only [Config.holds_iff, exists_eq_left']
  · intro template hholds hne
    have htemplate := Config.template?_eq_some_iff.mpr ⟨Config.holds_iff.mp hholds, hne⟩
    refine ⟨resolve_eq_outside_iff hlines htext htemplate, ?_⟩
    intro hline
    obtain ⟨offset, hat, hok⟩ := resolve_eq_ok hlines htext htemplate hline
    exact ⟨offset, _, _, hat, hok, Template.filled_fill _ template,
      Document.inserts_enclosing hlam offset⟩

theorem resolve_chainedCallTree_by_span :
    let config : Config :=
      { Config.standard with run := some "x ${fullTestName}", identifiers := ["it"] }
    let d : Document := ⟨"/w", "/w/a.ts", "it.b('a',it())", chainedCallTree⟩
    d.tree.Nested ∧ "" ∉ config.identifiers ∧
      config.Holds .run (some "x ${fullTestName}") ∧ "x ${fullTestName}" ≠ "" ∧
      ∃ value, Template.Filled value "x ${fullTestName}" "x a\\s.*" ∧
        d.Inserts config [⟨some "a", [], 0, 14⟩, ⟨none, [some "a"], 9, 13⟩] 11 value := by
  intro config d
  have hnested : d.tree.Nested := by decide +kernel
  have hids : "" ∉ config.identifiers := by decide
  have hholds : config.Holds .run (some "x ${fullTestName}") := .run
  have hne : "x ${fullTestName}" ≠ "" := by decide
  obtain ⟨-, -, -, lines, hlines, htext, hspec⟩ := resolve_by_span config d .run ⟨0, 11⟩ hnested hids
  have hone : (0 : UInt32).toNat < lines.length :=
    List.length_pos_of_ne_nil hlines.ne_nil
  obtain ⟨offset, value, command, hat, hresult, hfilled, hinserts⟩ := (hspec _ hholds hne).2 hone
  have heleven : Position.offset? d.text ⟨0, 11⟩ = some 11 := by decide +kernel
  rw [← Position.offset?_eq_some_iff_at hlines htext, heleven] at hat
  obtain rfl := Option.some.inj hat
  have hcommand : resolve config d .run ⟨0, 11⟩ = .ok "x a\\s.*" := by decide +kernel
  obtain rfl := Except.ok.inj (hresult.symm.trans hcommand)
  have hblocks : Block.extract d.text config.identifiers d.tree =
      [⟨some "a", [], 0, 14⟩, ⟨none, [some "a"], 9, 13⟩] := by decide +kernel
  exact ⟨hnested, hids, hholds, hne, value, hfilled, hblocks ▸ hinserts⟩

end CursorCommand
