import OsPi.Shell.Parser

/-!
# The Grammar of Command Lines

A text is a sequence of tokens between spaces (`Text`): words, redirections with the word that
names the file, and pipes. The tokens between the pipes are the commands of a pipeline
(`Pipeline`), each of which has a word; the first may have an input redirection and the last an
output redirection. A text with an `&` at its end is the same in the background (`Matches`).
-/

namespace OsPi.Shell

/-- A command line: the words of its commands, the redirections with their flags (here-document,
append) and whether it runs in the background. -/
structure CommandLine where
  commands : List (List Str)
  input : Option (Bool × Str)
  output : Option (Bool × Str)
  background : Bool

inductive Token
  | word (w : Str)
  | input (here : Bool) (name : Str)
  | output (append : Bool) (name : Str)
  | pipe
  deriving DecidableEq, Repr

/-- A text of spaces only. -/
def Spaces (s : Str) : Prop := ∀ c ∈ s, isspace c = true

/-- A text that starts with a word and goes on with something else. -/
structure IsWord (w rest : Str) : Prop where
  ne_nil : w ≠ []
  chars : ∀ c ∈ w, wordChar c = true
  ends : ∀ c ∈ rest.head?, wordChar c = false

/-- The text starts with the token, and the rest follows. -/
inductive Token.At : Token → Str → Str → Prop
  | word {w rest} (hw : IsWord w rest) : At (.word w) (w ++ rest) rest
  | input {sp w rest} (hsp : Spaces sp) (hw : IsWord w rest) :
      At (.input false w) (lt :: (sp ++ (w ++ rest))) rest
  | hereDocument {sp w rest} (hsp : Spaces sp) (hw : IsWord w rest) :
      At (.input true w) (lt :: lt :: (sp ++ (w ++ rest))) rest
  | output {sp w rest} (hsp : Spaces sp) (hw : IsWord w rest) :
      At (.output false w) (gt :: (sp ++ (w ++ rest))) rest
  | append {sp w rest} (hsp : Spaces sp) (hw : IsWord w rest) :
      At (.output true w) (gt :: gt :: (sp ++ (w ++ rest))) rest
  | pipe {rest} : At .pipe (bar :: rest) rest

/-- The text is made of the tokens and of spaces. -/
inductive Text : Str → List Token → Prop
  | blank {sp} (hsp : Spaces sp) : Text sp []
  | token {sp s t rest ts} (hsp : Spaces sp) (ht : Token.At t s rest) (h : Text rest ts) :
      Text (sp ++ s) (t :: ts)

/-- The words, and the names and flags of the redirections, among tokens. -/
def words (ts : List Token) : List Str :=
  ts.filterMap fun | .word w => some w | _ => none

def inputs (ts : List Token) : List (Bool × Str) :=
  ts.filterMap fun | .input here name => some (here, name) | _ => none

def outputs (ts : List Token) : List (Bool × Str) :=
  ts.filterMap fun | .output append name => some (append, name) | _ => none

/-- The tokens are a pipeline of commands that are not empty, with at most one input redirection,
in the first, and at most one output redirection, in the last. -/
structure Pipeline (segs : List (List Token)) (c : CommandLine) : Prop where
  commands : segs.map words = c.commands
  ne_nil : ∀ seg ∈ segs, words seg ≠ []
  noPipe : ∀ seg ∈ segs, Token.pipe ∉ seg
  input : segs.flatMap inputs = c.input.toList
  input_first : segs.tail.flatMap inputs = []
  output : segs.flatMap outputs = c.output.toList
  output_last : segs.dropLast.flatMap outputs = []

/-- **The grammar**: the text is the command line. A text with no command is not run in the
background. -/
def Matches (s : Str) (c : CommandLine) : Prop :=
  ∃ body segs, Text body ([Token.pipe].intercalate segs) ∧ Pipeline segs c ∧
    (c.background = false ∧ s = body ∨
      c.background = true ∧ c.commands ≠ [] ∧ ∃ sp, Spaces sp ∧ s = body ++ amp :: sp)

end OsPi.Shell
