import Mathlib.Logic.Basic

/-!
# Error codes

`errno.h`, the codes that the modelled functions return.
-/

namespace Usax.Common

inductive Errno
  | eperm | enoent | enomem | eacces | ebusy | eexist | exdev | enotdir | eisdir | einval | enospc | erofs | enametoolong
  | enotempty | eloop | etime | edquot | etxtbsy | ebadf | efault | esrch | eintr | echild | eagain | epipe | enosys | enolck
  | enoexec | eio | e2big | enodev | eaddrinuse | emfile | eopnotsupp | erange
deriving DecidableEq, Repr

/-- The value of the code. -/
def Errno.code : Errno → Nat
  | .eperm => 1
  | .enoent => 2
  | .enomem => 12
  | .eacces => 13
  | .ebusy => 16
  | .eexist => 17
  | .exdev => 18
  | .enotdir => 20
  | .eisdir => 21
  | .einval => 22
  | .enospc => 28
  | .erofs => 30
  | .enametoolong => 36
  | .enotempty => 39
  | .eloop => 40
  | .etime => 62
  | .edquot => 122
  | .etxtbsy => 26
  | .ebadf => 9
  | .efault => 14
  | .esrch => 3
  | .eintr => 4
  | .echild => 10
  | .eagain => 11
  | .epipe => 32
  | .enosys => 38
  | .enolck => 37
  | .enoexec => 8
  | .eio => 5
  | .e2big => 7
  | .enodev => 19
  | .eaddrinuse => 98
  | .emfile => 24
  | .eopnotsupp => 95
  | .erange => 34

end Usax.Common
