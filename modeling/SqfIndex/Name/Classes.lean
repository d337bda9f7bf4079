import SqfIndex.Name.Engine
import SqfIndex.Text.Case

/-!
Classes of names: reserved words, engine commands, locals, and the locals that the engine defines
by itself. Reserved words and commands are recognised up to the case of ASCII letters.
-/

namespace SqfIndex.Name

/-- Keywords, literals and core commands that never denote a variable of the user. -/
def reservedWords : List String :=
  ["if", "then", "else", "exitwith", "while", "do", "for", "from", "to", "step", "foreach",
    "foreachreversed", "switch", "case", "default", "with", "waituntil", "try", "catch",
    "throw", "true", "false", "nil", "private", "params", "param", "call", "spawn", "execvm",
    "compile", "compilefinal", "preprocessfile", "preprocessfilelinenumbers", "and", "or",
    "not", "isnil", "isnull", "count", "select", "player", "this", "hint", "diag_log",
    "format", "str", "missionnamespace", "uinamespace", "profilenamespace", "parsingnamespace",
    "objnull", "grpnull", "controlnull", "displaynull", "scriptnull", "tasknull",
    "locationnull"]

/-- Locals that the engine defines inside certain constructs. -/
def magicLocals : List String :=
  ["_this", "_x", "_y", "_foreachindex", "_exception", "_thisscript", "_thisfsm",
    "_thiseventhandler", "_thisarg", "_thistype"]

def isReserved (name : String) : Bool := reservedWords.contains (Text.asciiLower name)

def isEngineCommand (name : String) : Bool := engineCommands.contains (Text.asciiLower name)

def isMagicLocal (name : String) : Bool := magicLocals.contains (Text.lowered name)

/-- Whether a name is private to its document; this depends on the name alone. -/
def isLocal (name : String) : Bool := name.toList.head? == some '_'

end SqfIndex.Name
