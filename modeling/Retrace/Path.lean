/-!
# Paths of files

Paths are texts whose parts are divided by slashes.

* `parts`: the parts of a path that lead somewhere.
* `below`: parts below a path, in normal form.
* `append`: a path as it is and parts behind it.
-/

set_option autoImplicit false
namespace Retrace
namespace Path

/-- The parts of a path that lead somewhere. -/
def parts (path : String) : List String :=
  (path.splitOn "/").filter fun part => part != "" && part != "."

/-- The slashes in front of a path: none, one, or exactly two. -/
def root (path : String) : String :=
  let slashes := (path.toList.takeWhile (· == '/')).length
  if slashes = 0 then "" else if slashes = 2 then "//" else "/"

/-- Parts below a path, in normal form: without empty parts, without parts that stay where they are,
and without a slash at the end. -/
def below (path : String) (more : List String) : String :=
  root path ++ "/".intercalate (parts path ++ more)

/-- Parts behind a path, which is left as it is. -/
def append (path : String) (more : List String) : String :=
  let rest := "/".intercalate more
  if path.isEmpty || path.endsWith "/" then path ++ rest else path ++ "/" ++ rest

end Path
end Retrace
