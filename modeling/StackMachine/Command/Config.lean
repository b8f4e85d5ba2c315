import StackMachine.Command.Loading

/-!
# Showing the configuration

The command that tells which limits are in force and where they come from.
-/

namespace StackMachine

namespace Command

/-- A configuration and its origin as JSON. -/
def configJson (config : Config) (origin : Origin) : Json :=
  let limits : Json := .object [("maxSteps", (config.maxSteps.map Json.number).getD .null),
    ("memoryLimit", .number config.memoryLimit), ("heapLimit", .number config.heapLimit)]
  .object [("source", .string origin.toText), ("path", (origin.path?.map Json.string).getD .null),
    ("config", limits)]

/-- A configuration and its origin in lines for a reader. -/
def configLines (config : Config) (origin : Origin) : List Text :=
  ["Effective Tally configuration",
    Text.concat ["  Source:       ", origin.toText],
    Text.concat ["  Path:         ", origin.path?.getD "(none)"],
    Text.concat ["  Max steps:    ", (config.maxSteps.map Number.toText).getD "(unlimited)"],
    Text.concat ["  Memory limit: ", config.memoryLimit.toText],
    Text.concat ["  Heap limit:   ", config.heapLimit.toText]]

/-- Shows the configuration. -/
def config {m : Type → Type} [Monad m] [Environment m] (json : Bool) : m Outcome := do
  match ← resolveConfig (m := m) !json with
  | .error outcome => return outcome
  | .ok (config, origin) =>
    return .success (if json then (configJson config origin).pretty
      else Text.join "\n" (configLines config origin))

end Command

end StackMachine
