import Qualify.Json.Scanner

namespace Qualify.Json

/-- A container that waits for the value in it. What it holds so far is kept last first. -/
inductive Frame where
  | items (done : List Json)
  | members (done : List (String × Json)) (key : String)

inductive Expect where
  | value
  | itemOrClose
  | keyOrClose
  | key (done : List (String × Json))
  | colon (done : List (String × Json)) (key : String)
  /-- A value has ended; its container goes on or closes. -/
  | after (j : Json)

structure Reading where
  stack : List Frame
  expect : Expect

def depthLimit : Nat := 127

namespace Reading

def startValue (stack : List Frame) : Token → Option Reading
  | .scalar j => some ⟨stack, .after j⟩
  | .text s => some ⟨stack, .after (.string s)⟩
  | .openArray =>
    if stack.length < depthLimit then some ⟨.items [] :: stack, .itemOrClose⟩ else none
  | .openObject => if stack.length < depthLimit then some ⟨stack, .keyOrClose⟩ else none
  | _ => none

def step (r : Reading) (t : Token) : Option Reading :=
  match r.expect, t, r.stack with
  | .value, t, stack => startValue stack t
  | .itemOrClose, .closeArray, .items _ :: stack => some ⟨stack, .after (.array [])⟩
  | .itemOrClose, t, stack => startValue stack t
  | .keyOrClose, .closeObject, stack => some ⟨stack, .after (.object [])⟩
  | .keyOrClose, .text k, stack => some ⟨stack, .colon [] k⟩
  | .key done, .text k, stack => some ⟨stack, .colon done k⟩
  | .colon done k, .colon, stack => some ⟨.members done k :: stack, .value⟩
  | .after j, .comma, .items done :: stack => some ⟨.items (j :: done) :: stack, .value⟩
  | .after j, .comma, .members done k :: stack => some ⟨stack, .key ((k, j) :: done)⟩
  | .after j, .closeArray, .items done :: stack => some ⟨stack, .after (.array (j :: done).reverse)⟩
  | .after j, .closeObject, .members done k :: stack =>
    some ⟨stack, .after (.object ((k, j) :: done).reverse)⟩
  | _, _, _ => none

end Reading

def ofTokens? (ts : List Token) : Option Json := do
  match ← ts.foldlM Reading.step ⟨[], .value⟩ with
  | ⟨[], .after j⟩ => some j
  | _ => none

/-- Reads one document; nothing but blanks may surround it. -/
def parse? (s : String) : Option Json := do ofTokens? (← tokens? s.toList)

end Qualify.Json
