import Logo.CommandLine

/-! What the command line tells its reader about itself. -/
namespace Logo.CommandLine

def helpText : String :=
  "Logo - a turtle graphics interpreter\n\n" ++
  "Usage: logo [OPTIONS] <COMMAND>\n\n" ++
  "Commands:\n" ++
  "  run [--json] <FILE>               Run a Logo program\n" ++
  "  check [--json] [--ast] <FILES>... Parse programs without running them\n" ++
  "  repl                              Start an interactive session\n" ++
  "  help                              Print this message\n\n" ++
  "Options:\n" ++
  "  -v, --verbose        Log the files that are read to stderr\n" ++
  "      --config <PATH>  Config file to use instead of ./logo.toml\n" ++
  "  -h, --help           Print help\n" ++
  "  -V, --version        Print version\n"

def Usage.message : Usage → String
  | .help | .empty => helpText
  | .version => "logo 0.1.0\n"
  | .missingCommand => "error: a command is required\n"
  | .unknownCommand => "error: unrecognized command\n"
  | .unknownArgument => "error: unexpected argument\n"
  | .repeatedArgument => "error: an argument cannot be used more than once\n"
  | .unwantedValue => "error: a value is given to an option that takes none\n"
  | .missingValue => "error: a value is required but none was given\n"
  | .missingFile => "error: a file is required\n"

end Logo.CommandLine
