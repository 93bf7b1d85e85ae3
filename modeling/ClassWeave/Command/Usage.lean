import ClassWeave.Command.Arguments
/-!
# Command -- what is said about a command line

The text that help shows, and the wording of a command line that is
refused.
-/


namespace ClassWeave

/-- The text that help shows. -/
def Command.usage : String :=
  String.intercalate "\n"
    ["Enhance compiled Java classes in place, ahead of time or on load", "",
      "Usage: class-enhancer [OPTIONS] <COMMAND>", "",
      "Commands:",
      "  enhance  Enhance every eligible class under the source directory",
      "           [--no-recurse] [--parallel] [--keep-going]",
      "  resolve  Load classes through the reloading loader, enhancing on first load",
      "           [--classpath <ENTRY>]... <NAME>...",
      "  inspect  Show the parsed header and eligibility verdict of one class file",
      "           <FILE>",
      "  stats    Show what the ledger amounts to",
      "  clear    Remove the ledger", "",
      "Options:",
      "  --config <FILE>      Base config file (default: <conf-dir>/enhance.toml when present)",
      "  --conf-dir <DIR>     Directory of config files (default: conf)",
      "  --id <ID>            Configuration id layered on top of the base file, in order",
      "  --source <DIR>       Root of the class tree",
      "  --destination <DIR>  Where output goes (default: over the sources)",
      "  --ledger <FILE>      Ledger of what was written",
      "  --no-ledger          Keep no ledger",
      "  --log-level <LEVEL>  Level of the log, or a log filter",
      "  -h, --help           Print help"]

/-- The wording of a command line that is refused. -/
def UsageError.message : UsageError → String
  | .unknownArgument => "error: unexpected argument found"
  | .invalidSubcommand => "error: unrecognized subcommand"
  | .missingArgument => "error: the required arguments were not provided"
  | .argumentConflict => "error: an argument cannot be used with another one, or twice"
  | .invalidValue => "error: a value is required for an argument but none was supplied"
  | .unneededValue => "error: unexpected value for a flag"
  | .missingSubcommand => "error: a subcommand is required but one was not provided"
  | .help | .helpOnMissing => Command.usage

/-- The exit code of a command line that is not run: asking for help is no
failure. -/
def UsageError.exitCode : UsageError → Nat
  | .help => 0
  | _ => 2

end ClassWeave
