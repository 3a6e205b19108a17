import Xv6.Outcomes

namespace Xv6.ShellParser

open Outcomes

/-- A pointer into the line, as what there is from it to es. The line has no
NUL, so that *s is 0 at the end only. -/
abbrev Ptr := List Char

inductive Cmd (α : Type)
  | exec (argv : List α)
  | redir (cmd : Cmd α) (file : α) (mode fd : Nat)
  | pipe (left right : Cmd α)
  | list (left right : Cmd α)
  | back (cmd : Cmd α)
  deriving DecidableEq

/-- The parser stops when it calls panic. The fuel bounds its calls. -/
inductive Stop
  | fuel
  | panic (message : String)
  deriving DecidableEq

/-- The state is *ps. -/
abbrev Parser (α : Type) := Run Ptr Stop α

abbrev maxArgs : Nat := 10

def whitespace : List Char := [' ', '\t', '\r', '\n', '\x0b']

def symbols : List Char := ['<', '|', '>', '&', ';', '(', ')']

def isPlain (c : Char) : Bool := !whitespace.contains c && !symbols.contains c

def skip (s : Ptr) : Ptr := s.dropWhile whitespace.contains

def scan : Ptr → Option Char × Ptr
  | [] => (none, [])
  | '>' :: '>' :: s => (some '+', s)
  | c :: s => if symbols.contains c then (some c, s) else (some 'a', (c :: s).dropWhile isPlain)

/-- The result 0 is none. It comes with q and eq. -/
def gettoken : Parser (Option Char × Ptr × Ptr) := fun s =>
  let q := skip s
  let (ret, eq) := scan q
  .ok ((ret, q, eq), skip eq)

def peek (toks : List Char) : Parser Bool := fun s =>
  let s := skip s
  .ok (s.head?.any toks.contains, s)

section Commands

variable {α β : Type}

/-- The modes are O_RDONLY, O_WRONLY|O_CREATE|O_TRUNC and O_WRONLY|O_CREATE. -/
def redircmd (tok : Option Char) (cmd : Cmd α) (file : α) : Cmd α :=
  match tok with
  | some '<' => .redir cmd file 0 0
  | some '>' => .redir cmd file 0x601 1
  | some '+' => .redir cmd file 0x201 1
  | _ => cmd

/-- parseexec stores its arguments in the node that execcmd made, which is
below the REDIR nodes. -/
def Cmd.push : Cmd α → α → Cmd α
  | .exec argv, a => .exec (argv ++ [a])
  | .redir cmd file mode fd, a => .redir (cmd.push a) file mode fd
  | cmd, _ => cmd

def Cmd.map (f : α → β) : Cmd α → Cmd β
  | .exec argv => .exec (argv.map f)
  | .redir cmd file mode fd => .redir (cmd.map f) (f file) mode fd
  | .pipe left right => .pipe (left.map f) (right.map f)
  | .list left right => .list (left.map f) (right.map f)
  | .back cmd => .back (cmd.map f)

theorem map_redircmd (f : α → β) (tok : Option Char) (c : Cmd α) (file : α) :
    (redircmd tok c file).map f = redircmd tok (c.map f) (f file) := by
  unfold redircmd
  split <;> rfl

theorem map_push (f : α → β) (c : Cmd α) (a : α) : (c.push a).map f = (c.map f).push (f a) := by
  induction c with
  | exec argv => simp [Cmd.push, Cmd.map]
  | redir c file mode fd ih => simp [Cmd.push, Cmd.map, ih]
  | _ => rfl

end Commands

section Parse

abbrev Tree := Cmd (Ptr × Ptr)

def parseredirs : Nat → Tree → Parser Tree
  | 0, _ => throw .fuel
  | fuel + 1, cmd => do
    if ← peek ['<', '>'] then
      let (tok, _) ← gettoken
      let (ret, q, eq) ← gettoken
      if ret ≠ some 'a' then throw (.panic "missing file for redirection")
      parseredirs fuel (redircmd tok cmd (q, eq))
    else return cmd

def parseargs : Nat → Nat → Tree → Parser Tree
  | 0, _, _ => throw .fuel
  | fuel + 1, argc, ret => do
    if ← peek ['|', ')', '&', ';'] then return ret
    let (tok, q, eq) ← gettoken
    if tok = none then return ret
    if tok ≠ some 'a' then throw (.panic "syntax")
    if maxArgs ≤ argc + 1 then throw (.panic "too many args")
    let ret ← parseredirs fuel (ret.push (q, eq))
    parseargs fuel (argc + 1) ret

def parsebacks : Nat → Tree → Parser Tree
  | 0, _ => throw .fuel
  | fuel + 1, cmd => do
    if ← peek ['&'] then
      let _ ← gettoken
      parsebacks fuel (.back cmd)
    else return cmd

mutual

def parseline : Nat → Parser Tree
  | 0 => throw .fuel
  | fuel + 1 => do
    let cmd ← parsepipe fuel
    let cmd ← parsebacks fuel cmd
    if ← peek [';'] then
      let _ ← gettoken
      return .list cmd (← parseline fuel)
    else return cmd

def parsepipe : Nat → Parser Tree
  | 0 => throw .fuel
  | fuel + 1 => do
    let cmd ← parseexec fuel
    if ← peek ['|'] then
      let _ ← gettoken
      return .pipe cmd (← parsepipe fuel)
    else return cmd

def parseblock : Nat → Parser Tree
  | 0 => throw .fuel
  | fuel + 1 => do
    if !(← peek ['(']) then throw (.panic "parseblock")
    let _ ← gettoken
    let cmd ← parseline fuel
    if !(← peek [')']) then throw (.panic "syntax - missing )")
    let _ ← gettoken
    parseredirs fuel cmd

def parseexec : Nat → Parser Tree
  | 0 => throw .fuel
  | fuel + 1 => do
    if ← peek ['('] then parseblock fuel
    else
      let ret ← parseredirs fuel (.exec [])
      parseargs fuel 0 ret

end

/-- nulterminate, which comes last, leaves the tree as it is. -/
def parsecmd (fuel : Nat) : Parser Tree := do
  let cmd ← parseline fuel
  let _ ← peek []
  if (← get) ≠ [] then throw (.panic "syntax")
  return cmd

end Parse

end Xv6.ShellParser
