import DocScript.Grammar.Stmt
import DocScript.Machine.Eval

/-!
# Sessions

What a host does with a machine: build one on a heap, run scripts on it one after the other, and
call values. Bindings of the module and globals last from one script to the next.
-/

namespace DocScript

variable {σ : Type}

/-- How a machine is built. -/
structure Config where
  /-- Whether output is kept for the host. -/
  capture : Bool
  maxDepth : Nat
  /-- The arguments of the script, which it finds in the list `argv`. -/
  argv : Option (List String)
  /-- Further globals, which also take the place of those that every machine has. -/
  globals : List (String × Value)

def Config.default : Config := ⟨false, 200, none, []⟩

/-- The name of scripts in diagnostics. -/
def scriptName : String := "<script>"

namespace Machine

/-- The prototype of lists, with its natives numbered from `id`. -/
def arrayPrototype (id : Nat) : Doc :=
  Doc.empty.insertMany [(.str "len", .native id .len), (.str "push", .native (id + 1) .push)]

/-- The globals that every machine has: `println`, and `argv` if there are arguments. -/
def standardGlobals (println : Nat) (argv : Option DocId) : Bindings :=
  let base : Bindings := [("println", .native println .println)]
  match argv with
  | some id => base.set "argv" (.doc id)
  | none => base

/-- A new machine on a heap. -/
def build (heap : Heap σ) (c : Config) : Machine σ :=
  let id := heap.nextId
  let proto := heap.docs.size
  let docs := heap.docs.push (arrayPrototype id)
  let argv := c.argv.map fun args => arrayDoc proto (args.map .str)
  let globals := standardGlobals (id + 2) (argv.map fun _ => docs.size)
  { heap :=
      { frames := heap.frames.push none
        docs := docs ++ argv.toArray
        boxes := heap.boxes
        nextId := id + 3 }
    globals := c.globals.foldl (fun bs g => bs.set g.1 g.2) globals
    output := ⟨c.capture, ""⟩
    env := heap.frames.size
    depth := 0
    root := heap.frames.size
    arrayProto := proto
    maxDepth := c.maxDepth }

/-- What a global is bound to. -/
def global? (m : Machine σ) (name : String) : Option Value := m.globals.get? name

/-- What a name is bound to in the module. -/
def root? (m : Machine σ) (name : String) : Option Value := m.heap.frames.getLocal? m.root name

end Machine

/-- What became of a script. -/
inductive Outcome where
  | done
  /-- It was not run, because of these errors. -/
  | rejected (first : Diagnostic) (errors : Diagnostics)
  /-- An exception was not caught. -/
  | raised (message : String) (payload : Value)
  | outOfFuel

/-- Runs the statements of a script, up to the first exception. -/
def runProgram (k : Calls σ) : Program Unit → Machine σ → Outcome × Machine σ
  | [], m => (.done, m)
  | s :: ss, m =>
    match k.exec s m with
    | .error (.fault (.raised payload)) m =>
      (.raised (m.display payload) payload, { m with env := m.root })
    | .error (.fault .outOfFuel) m => (.outOfFuel, m)
    | .ok () m | .error _ m => runProgram k ss m

/-- Reads a script and runs it in the module, with the bound `fuel` on calls and loops. -/
def interpret (host : Host σ) (fuel : Nat) (text : String) (m : Machine σ) :
    Outcome × Machine σ :=
  let m := { m with env := m.root, depth := 0 }
  let parsed := Source.parse ⟨scriptName, text⟩
  match parsed.firstError? with
  | some first => (.rejected first parsed.errors, m)
  | none => runProgram (.within host fuel) parsed.program.erase m

/-- Calls a value where one result is wanted. -/
def callSingle (host : Host σ) (fuel : Nat) (callee : Value) (args : List Value) : Eval σ Value := do
  let vs ← callWithin host fuel callee args
  return Value.first vs

/-- A function in a frame of its own, outside the module. -/
def freeFunction (f : Function Unit) (bindings : Bindings) : Eval σ Value := do
  let i ← Machine.newFrame none
  modify fun m => m.withFrames fun fs => bindings.foldl (fun fs b => fs.define i b.1 b.2) fs
  return .func (← Machine.fresh) ⟨f.name, f.params, f.body, i⟩

end DocScript
