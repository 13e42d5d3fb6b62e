/-! # Error codes -/

namespace Mlibc

inductive Errno where
  | eafnosupport
  | eagain
  | ebusy
  | edeadlk
  | eintr
  | einval
  | enametoolong
  | enospc
  | eperm
  | erange
  | espipe
  | etimedout
  | other (code : Nat)
  deriving DecidableEq

end Mlibc
