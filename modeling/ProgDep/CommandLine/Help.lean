/-! What the program says about itself: its version, how it is called, and what its switches do. -/

namespace ProgDep.CommandLine

/-- The version of the program. -/
def version : String := "0.1.0"

/-- How the program is called. -/
def usageText : String :=
  "usage: irdeps [-h] [--version] [--stdin] [--function FUNCTION] [-f FORMAT]\n" ++
  "              [--max-search-depth MAX_SEARCH_DEPTH] [--no-memory-dependence]\n" ++
  "              [--exclude-unreachable] [--warnings-control \x7berror,none\x7d] [-v]\n" ++
  "              [input_file]\n"

/-- What the switches do. -/
def helpText : String :=
  usageText ++ "\nControl and data dependence analysis for IR functions\n" ++
  "\npositional arguments:\n" ++
  "  input_file            IR sourcefile\n" ++
  "\noptions:\n" ++
  "  -h, --help            show this help message and exit\n" ++
  "  --version             show program's version number and exit\n" ++
  "  --stdin               whether to pull IR input from stdin\n" ++
  "  --function FUNCTION   only analyze the function with this name\n" ++
  "  -f FORMAT, --format FORMAT\n" ++
  "                        Format to print, one or more of (comma-separated):\n" ++
  "                        cfg         - Control flow graph\n" ++
  "                        dom         - Dominator tree\n" ++
  "                        postdom     - Post-dominator tree\n" ++
  "                        df          - Dominance frontiers\n" ++
  "                        cdg         - Control dependence graph\n" ++
  "                        deps        - Instruction dependence graph (default)\n" ++
  "  --max-search-depth MAX_SEARCH_DEPTH\n" ++
  "                        bound the length of dependence paths followed by transitive queries\n" ++
  "  --no-memory-dependence\n" ++
  "                        do not add memory dependence edges\n" ++
  "  --exclude-unreachable\n" ++
  "                        leave blocks unreachable from the entry out of the dependence graph\n" ++
  "  --warnings-control \x7berror,none\x7d\n" ++
  "                        Turn warnings into errors (\"error\") or silence them (\"none\")\n" ++
  "  -v, --verbose         print debug logs\n"

end ProgDep.CommandLine
