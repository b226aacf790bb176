import Mathlib.Tactic

/-!
# Error causes

The causes that `badge_err_set` records, the `ECAUSE_*` of the sources. The header
that numbers them is part of badgelib; only the names matter here.
-/

namespace BadgerOS

/-- The cause in a `badge_err_t`. -/
inductive Cause
  | ok
  | unknown
  | param
  | range
  | nomem
  | notfound
  | notconfig
  | unsupported
  | readonly
  | exists
  | notempty
  | isDir
  | isFile
  | toolong
  | nospace
  | inuse
  | timeout
  | unavail
  | illegal
  | format
  | perm
  | state
  deriving DecidableEq, Repr

end BadgerOS
