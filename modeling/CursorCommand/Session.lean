import CursorCommand.Document

/-!
# Sessions

A session keeps a configuration and an open document between questions. Settings without a section
leave the configuration as it is, and a question without an answer changes nothing.
-/
namespace CursorCommand

/-- What lasts from one step to the next. -/
structure Session where
  config : Config
  document : Document

namespace Session

def initial : Session := ⟨Config.standard, Document.empty⟩

inductive Step where
  | settings (settings : Json)
  | template (kind : CommandKind) (template : String)
  | document (document : Document)
  | cursor (kind : CommandKind) (position : Position)

inductive Answer where
  /-- The configuration after a change of settings, when they have a section. -/
  | settings (config : Option Config)
  | config (config : Config)
  | blocks (blocks : List Block)
  | command (result : Except ResolveError String)

def after (s : Session) : Step → Session
  | .settings settings => { s with config := (Config.ofSettings? settings).getD s.config }
  | .template kind template => { s with config := s.config.withTemplate kind template }
  | .document document => { s with document := document }
  | .cursor _ _ => s

def answer (s : Session) : Step → Answer
  | .settings settings => .settings (Config.ofSettings? settings)
  | .template kind template => .config (s.config.withTemplate kind template)
  | .document document => .blocks (document.blocks s.config.identifiers)
  | .cursor kind position => .command (resolve s.config s.document kind position)

def answers : Session → List Step → List Answer
  | _, [] => []
  | s, step :: steps => s.answer step :: answers (s.after step) steps

end Session

end CursorCommand
