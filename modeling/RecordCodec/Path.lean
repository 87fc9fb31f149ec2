/-!
# Paths

Where in a value something was found: the name of the root, then a step for each
tuple component or array index on the way down. In text the steps follow the
name as `.component` and `[index]`.
-/

namespace RecordCodec

inductive Step where
  | component (name : String)
  | index (i : Nat)
  deriving DecidableEq, Repr

/-- A root name and the steps from it, outermost first. -/
structure Path where
  root : String
  steps : List Step
  deriving DecidableEq, Repr

namespace Step

def text : Step → String
  | component name => "." ++ name
  | index i => "[" ++ toString i ++ "]"

end Step

namespace Path

def ofName (name : String) : Path := ⟨name, []⟩

/-- One step further down. -/
def push (path : Path) (step : Step) : Path := { path with steps := path.steps ++ [step] }

def component (path : Path) (name : String) : Path := path.push (.component name)

def index (path : Path) (i : Nat) : Path := path.push (.index i)

def text (path : Path) : String := path.steps.foldl (fun text step => text ++ step.text) path.root

@[simp] theorem text_ofName (name : String) : (ofName name).text = name := rfl

@[simp] theorem text_push (path : Path) (step : Step) :
    (path.push step).text = path.text ++ step.text := by
  simp [text, push]

end Path

end RecordCodec
