import Parlance.Text.Digit
import Parlance.Text.Json
/-!
The version a tool tells about itself.
-/
namespace Parlance

structure Release where
  version : String
  commit : String
  date : String
  deriving DecidableEq, Repr, Inhabited

namespace Release

def tool : String := "loa"

def current : Release := ⟨"0.1.0-dev", "", ""⟩

def trimmed (r : Release) : Release := ⟨Text.trim r.version, Text.trim r.commit, Text.trim r.date⟩

def line (r : Release) : String :=
  tool ++ " " ++ r.version ++ (if r.commit = "" then "" else s!" ({r.commit})") ++
    if r.date = "" then "" else s!" built {r.date}"

def fields (r : Release) : List (String × String) :=
  let optional (key value : String) := if value = "" then [] else [(key, value)]
  [("tool", tool), ("version", r.version)] ++ optional "git_commit" r.commit ++
    optional "build_date" r.date ++ [("go", "go_")]

def json (r : Release) : String :=
  (JsonValue.record (r.trimmed.fields.map fun (k, v) => (k, .ofString v))).page

def yaml (r : Release) : String :=
  String.join (r.trimmed.fields.map fun (k, v) => s!"{k}: {v}\n")

end Release

end Parlance
