import PackageCoupling.Path.Basic

/-!
Paths as seen from a current directory.
-/

namespace PackageCoupling.Path

/-- The length of the longest common front part. -/
def commonLength : List Step → List Step → Nat
  | a :: as, b :: bs => if a == b then commonLength as bs + 1 else 0
  | _, _ => 0

/-- The steps from `base` to `target`: up out of what they do not share, then down. -/
def stepsBetween (base target : List Step) : List Step :=
  let n := commonLength target base
  List.replicate (base.length - n) .up ++ target.drop n

/-- The path of `path` below `root` as seen from the absolute directory `cwd`. A location that does
not start at the root cannot be related to `cwd` and stays as given. -/
def relativize (root path cwd : String) : String :=
  let target := append root path
  if isRooted target then stepsText (stepsBetween (steps cwd) (steps target)) else path

end PackageCoupling.Path
