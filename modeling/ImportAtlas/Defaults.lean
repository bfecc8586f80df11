/-!
# Defaults

What is scanned when nothing else is asked for, and the endings that a specifier may leave out.
-/

namespace ImportAtlas

/-- The endings of source files, in the order in which they are tried. -/
def sourceEndings : List String := [".ts", ".tsx", ".js", ".jsx", ".mjs"]

/-- The globs of the files to scan. -/
def defaultIncludes : List String := ["*.ts", "*.tsx", "*.js", "*.jsx", "*.mjs"]

/-- The globs of the files and folders to leave out. -/
def defaultExcludes : List String := ["**/node_modules/**", "**/dist/**", "**/build/**"]

/-- The globs to use for the files to scan: an empty list counts as none. -/
def includesOrDefault (includes : Option (List String)) : List String :=
  match includes with
  | some (first :: rest) => first :: rest
  | _ => defaultIncludes

/-- The globs to use for what is left out. -/
def excludesOrDefault (excludes : Option (List String)) : List String :=
  excludes.getD defaultExcludes

end ImportAtlas
