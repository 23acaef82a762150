import DartLowering.Json.Writer
import DartLowering.Target.Release

/-!
What the command says about itself.
-/
namespace DartLowering.Command

/-- What is known of a build only when it is made. -/
structure Build where
  commit : String
  toolchain : String
  platform : String
  architecture : String

namespace Build

def version : String := "0.3.0"

def date : String := "2026-10-01"

/-- One line each, without a commit that is not known. -/
def text (tool : String) (b : Build) : String :=
  tool ++ " v" ++ version ++ "\n" ++
    "Build Date: " ++ date ++ "\n" ++
    (if b.commit = "unknown" || b.commit = "" then "" else "Commit: " ++ b.commit ++ "\n") ++
    "Go Version: " ++ b.toolchain ++ "\n" ++
    "Platform: " ++ b.platform ++ "/" ++ b.architecture ++ "\n" ++
    "Runtime API: " ++ Release.supported ++ "\n"

def json (tool : String) (b : Build) : Json :=
  .ofMembers
    [("tool", .ofText tool),
      ("version_info", .ofMembers
        [("version", .ofText version), ("build_date", .ofText date),
          ("commit_sha", .ofText b.commit), ("go_version", .ofText b.toolchain),
          ("platform", .ofText b.platform), ("arch", .ofText b.architecture),
          ("runtime_api", .ofText Release.supported)])]

def jsonText (tool : String) (b : Build) : String := (b.json tool).indented 0 ++ "\n"

end DartLowering.Command.Build
