import QualityGate.Command.Rendering

/-! The configuration file that the command can create. It says what holds anyway. -/
namespace QualityGate.Command

/-- The name of a configuration file in a scope root. -/
def configName : String := "qgate.toml"

def configTemplate : String :=
  lines
    ["# qgate configuration",
     "#",
     "# Command-line flags override values set here.",
     "",
     "[thresholds]",
     "# max_complexity = 10            # cyclomatic complexity: error above this",
     "# warning_complexity = 7         # cyclomatic complexity: warning above this",
     "# max_function_lines = 50",
     "# max_nesting_depth = 4",
     "# max_parameters = 5",
     "# max_cognitive_complexity = 15",
     "# max_file_lines = 300",
     "# max_class_public_methods = 5",
     "# max_interface_methods = 7      # Protocol / ABC classes",
     "# max_isinstance_chain = 2",
     "# max_nested_try = 2",
     "",
     "[analyzer]",
     "# Glob patterns to exclude from analysis",
     "exclude = [",
     "    \"**/.venv/**\",",
     "    \"**/venv/**\",",
     "    \"**/__pycache__/**\",",
     "    \"**/node_modules/**\",",
     "]",
     "",
     "# Block on warnings too",
     "strict = false",
     "",
     "# Analyze files in parallel",
     "parallel = true",
     "",
     "# Skip files classified as shell code (handlers, adapters, cli, ...)",
     "core_only = false",
     "",
     "# Rules can be switched off individually",
     "",
     "[rules.complexity]",
     "enabled = true",
     "",
     "[rules.design-principles]",
     "enabled = true",
     "",
     "[rules.purity]",
     "enabled = true",
     "",
     "[rules.error-handling]",
     "enabled = true",
     "",
     "# Core/shell classification can be replaced per family",
     "# (complexity, design, purity, error-handling).",
     "#",
     "# [classifier.purity]",
     "# shell = [\"*/handlers/*\", \"*/cli/*\", \"*_adapter.py\"]",
     "# core = [\"*/domain/*\", \"*/services/*\"]"]

def createdNotice : String :=
  lines
    ["Created " ++ configName,
     "",
     "Next steps:",
     "  1. Adjust thresholds and excludes in " ++ configName,
     "  2. Run: qgate check --all"]

end QualityGate.Command
