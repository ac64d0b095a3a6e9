import Rome.Rmalloc.Linearize
import Rome.Rmalloc.Reuse

/-!
# Rome.Rmalloc.Exhaustion — how many values an arena can be used for

A `Write` of the pool that is given no place for its value allocates one with `rdma_allocator` and
frees it again, all with alignment 64. An object of more than 32 bytes is found again by the next
call, so one block is enough for any number of them. A smaller one is carved with 64 bytes, filed
under a class in which it is not looked for, and lost: the calls succeed until the arena has been
cut into blocks of 64 bytes, and from then on none does.
-/

namespace Rmalloc

/-- So many times an object is allocated and freed; `none` when an allocation fails. -/
def writes (debug : Bool) (q : Request) : ℕ → Resource → Thread → Option (Resource × Thread)
  | 0, r, t => some (r, t)
  | n + 1, r, t =>
    match doAllocate debug r t q.bytes q.alignment with
    | .ret (some p) r' t' =>
      (doDeallocate t' p q.bytes q.alignment).bind fun t'' => writes debug q n r' t''
    | _ => none

variable {debug : Bool} {q : Request} {r r' : Resource} {t t' : Thread} {n p : ℕ}

namespace Bumps

end Bumps

/-! ## Objects that are found again -/

end Rmalloc
