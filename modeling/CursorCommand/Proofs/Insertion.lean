import CursorCommand.Document
import CursorCommand.Proofs.Block.Nesting
import CursorCommand.Proofs.Block.Shift
import CursorCommand.Proofs.Text.Insertion

/-!
# Lines inserted above a document

Complete lines above a document move its blocks and its cursors and change nothing else: the command
for a cursor stays what it was, as long as no call in the new lines opens a block.
-/
namespace CursorCommand

/-- The same error, reported for a cursor at another position. -/
def ResolveError.movedTo (q : Position) : ResolveError → ResolveError
  | .noTemplate kind => .noTemplate kind
  | .outside _ testFilePath => .outside q testFilePath

/-- Titles are made of names, so it does not matter where a block stands. -/
theorem Titles.ofBlock_shift (separator unknown : String) (k : Nat) (block : Option Block) :
    ofBlock separator unknown (block.map (Block.shift k)) = ofBlock separator unknown block := by
  cases block <;> rfl

namespace Document

/-- The document with text above its own, and a tree of the whole. -/
def below (above : String) (tree : Node) (d : Document) : Document :=
  { d with text := above ++ d.text, tree := tree }

variable {config : Config} {d : Document} {above : String} {tree : Node}

theorem command_below (k : Nat) (block : Option Block) (template : String) :
    ((d.below above tree).target config (block.map (Block.shift k))).command template =
      (d.target config block).command template := by
  have hvalue : ((d.below above tree).target config (block.map (Block.shift k))).value =
      (d.target config block).value := by
    funext p
    have htitles : ((d.below above tree).target config (block.map (Block.shift k))).titles =
        (d.target config block).titles := Titles.ofBlock_shift _ _ k block
    cases p with
    | testName => exact congrArg Titles.own htitles
    | fullTestName => exact congrArg Titles.full htitles
    | _ => rfl
  rw [Target.command, hvalue, Target.command]

theorem blocks_below {front : List Node} {identifiers : List String}
    (htree : tree.children = front ++ d.tree.children.map (Node.shift above.utf8ByteSize))
    (hfront : ∀ n ∈ front, ∀ r ∈ n.places,
      ¬ r.node.Opens (above ++ d.text).toList identifiers) :
    (d.below above tree).blocks identifiers =
      (d.blocks identifiers).map (Block.shift above.utf8ByteSize) := by
  rw [← Measure.utf8_length_toList] at htree ⊢
  exact Block.extract_shift htree hfront

end Document

/-- With complete lines above a document, in which no call opens a block, the blocks move by their
bytes, and the command for a cursor as many lines further down as they have line breaks is the same.
Of an error only the line changes that it names. -/
theorem resolve_below (config : Config) (d : Document) (kind : CommandKind) (above : String)
    (front : List Node) (tree : Node) (p q : Position)
    (habove : Line.Complete above.toList)
    (htree : tree.children = front ++ d.tree.children.map (Node.shift above.utf8ByteSize))
    (hfront : ∀ n ∈ front, ∀ r ∈ n.places,
      ¬ r.node.Opens (above ++ d.text).toList config.identifiers)
    (hline : q.line.toNat = p.line.toNat + Line.breaks above.toList)
    (hcharacter : q.character = p.character) :
    (d.below above tree).blocks config.identifiers =
      (d.blocks config.identifiers).map (Block.shift above.utf8ByteSize) ∧
    resolve config (d.below above tree) kind q =
      (resolve config d kind p).mapError (ResolveError.movedTo q) ∧
    (ResolveError.outside q d.testFilePath).message =
      "Position " ++ toString (p.line.toNat + Line.breaks above.toList) ++ ":" ++
        toString p.character.toNat ++ " is outside " ++ d.testFilePath := by
  have hblocks := Document.blocks_below htree hfront
  refine ⟨hblocks, ?_, by rw [ResolveError.message, hline, hcharacter]⟩
  have hoffset : q.offset? (d.below above tree).text =
      (p.offset? d.text).map (· + above.utf8ByteSize) := by
    rw [← Measure.utf8_length_toList]
    exact Position.offset?_below habove hline hcharacter
  rw [resolve, resolve]
  cases config.template? kind with
  | none => rfl
  | some template =>
    simp only [hoffset]
    cases p.offset? d.text with
    | none => rfl
    | some offset =>
      simp only [Option.map_some]
      rw [hblocks, Block.enclosing?_shift, Document.command_below]
      rfl

/-- Two lines above, one of which a lone carriage return ends. -/
theorem resolve_below_chainedCallTree :
    let config : Config :=
      { Config.standard with run := some "${fullTestName}", identifiers := ["it"] }
    let d : Document := ⟨"/w", "/w/a.ts", "it.b('a',it())", chainedCallTree⟩
    let above := "é\r\x0c\r\n"
    let comment : Node := .mk ⟨.other, 0, 2, none, true, true⟩ []
    let tree : Node := .mk ⟨.other, 0, 20, none, true, false⟩
      (comment :: d.tree.children.map (Node.shift above.utf8ByteSize))
    Line.Complete above.toList ∧ Line.breaks above.toList = 2 ∧
      (d.below above tree).blocks ["it"] = (d.blocks ["it"]).map (Block.shift 6) ∧
      resolve config (d.below above tree) .run ⟨2, 11⟩ =
        (resolve config d .run ⟨0, 11⟩).mapError (ResolveError.movedTo ⟨2, 11⟩) := by
  intro config d above comment tree
  have habove : Line.Complete above.toList := .inr (by decide)
  have hbreaks : Line.breaks above.toList = 2 := by decide
  have hfront : ∀ n ∈ [comment], ∀ r ∈ n.places,
      ¬ r.node.Opens (above ++ d.text).toList config.identifiers := by decide +kernel
  have hmoved := resolve_below config d .run above [comment] tree ⟨0, 11⟩ ⟨2, 11⟩ habove rfl hfront
    (by rw [hbreaks]; rfl) rfl
  have hbytes : above.utf8ByteSize = 6 := by decide
  rw [hbytes] at hmoved
  exact ⟨habove, hbreaks, hmoved.1, hmoved.2.1⟩

end CursorCommand
