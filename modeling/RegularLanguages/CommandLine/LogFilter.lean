import RegularLanguages.Pattern.Verdict
import RegularLanguages.Text.Blank

/-!
# Filters for log messages

A filter is a list of rules with commas between them. A rule is a level, the name of a part of the
program, or both with an equals sign between them. A slash and a pattern for the text of messages
may follow the rules. No log is kept, so a filter selects nothing, but its defects are remarked on.
-/

namespace RegularLanguages.LogFilter

def trimmed (s : String) : String :=
  String.ofList (((s.toList.dropWhile Text.isBlank).reverse.dropWhile Text.isBlank).reverse)

def isLevel (s : String) : Bool :=
  ["off", "error", "warn", "info", "debug", "trace"].contains s.toLower

/-- The part of a rule that is no level where there must be one, or the whole rule if it has too
many parts. -/
def ruleDefect? (rule : String) : Option String :=
  match rule.splitOn "=" with
  | [_] => none
  | [_, level] =>
    if trimmed level = "" ∨ isLevel (trimmed level) then none else some (trimmed level)
  | _ => some rule

def ruleDefects (rules : String) : List String :=
  ((rules.splitOn ",").filterMap fun rule => ruleDefect? (trimmed rule)).map fun defect =>
    "invalid logging spec '" ++ defect ++ "'"

def patternDefects (pattern : String) : List String :=
  (Pattern.trouble? pattern).toList.map fun trouble => "invalid regex filter - " ++
    trouble.message pattern

def defects (filter : String) : List String :=
  match filter.splitOn "/" with
  | [rules] => ruleDefects rules
  | [rules, pattern] => ruleDefects rules ++ patternDefects pattern
  | _ => ["invalid logging spec '" ++ filter ++ "' (too many '/'s)"]

def remarks (filter : String) : String :=
  String.join ((defects filter).map fun defect => "warning: " ++ defect ++ ", ignoring it\n")

end RegularLanguages.LogFilter
