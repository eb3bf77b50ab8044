/-
AUTORELEASE POOL PAGES.

`AutoreleasePoolPage` of NSObject.mm: a doubly linked list of pages on the
malloc heap, the hot page in thread-local storage, and the empty-pool
placeholder there as long as one pool is pushed and nothing is in it.

A page is its links and the slots below `next`; what lies above `next` is
scribble. `none` is a failed assertion, a bad pop (fatal since the 10.12 SDK)
or a nil dereference, and a walk along the links that takes more steps than
there are pages is one that never ends. The debugging options
(DebugPoolAllocation, DebugMissingPools, PrintPoolHiwat) are off.

The page size is `SIZE cap` for any number `cap` of slots; the runtime's
PAGE_MAX_SIZE of 4096 bytes is the one with 505 slots.
-/
import Mathlib.Data.List.AList
import ObjcRuntime.Autorelease.Stack

namespace ObjcRuntime

/-! ## Pages and the heap they live in -/

abbrev PageAddr := Nat

/-- An `id *` into a page, or the placeholder. -/
abbrev PoolToken := Nat

def EMPTY_POOL_PLACEHOLDER : PoolToken := 1

structure AutoreleasePoolPage where
  parent : Option PageAddr
  child : Option PageAddr
  /-- The slots from `begin()` up to `next`. -/
  entries : List PoolEntry

namespace AutoreleasePoolPage

/-- `sizeof(AutoreleasePoolPage)`: magic, next, thread, parent, child, depth and hiwat. -/
def headerSize : Nat := 56

/-- The size and alignment of a page with `cap` slots. -/
def SIZE (cap : Nat) : Nat := headerSize + 8 * cap

/-- The address of the `j`-th slot of the page at `a`; `begin()` is the address of slot 0. -/
def slot (a : PageAddr) (j : Nat) : PoolToken := a + headerSize + 8 * j

def next (a : PageAddr) (page : AutoreleasePoolPage) : PoolToken := slot a page.entries.length

def full (cap : Nat) (page : AutoreleasePoolPage) : Prop := page.entries.length = cap

instance (cap : Nat) (page : AutoreleasePoolPage) : Decidable (page.full cap) :=
  inferInstanceAs (Decidable (page.entries.length = cap))

def lessThanHalfFull (cap : Nat) (page : AutoreleasePoolPage) : Prop :=
  page.entries.length < cap / 2

instance (cap : Nat) (page : AutoreleasePoolPage) : Decidable (page.lessThanHalfFull cap) :=
  inferInstanceAs (Decidable (page.entries.length < cap / 2))

/-- `*token != POOL_BOUNDARY` is false. -/
def boundaryAt (a : PageAddr) (page : AutoreleasePoolPage) (token : PoolToken) : Bool :=
  match page.entries[(token - slot a 0) / 8]? with
  | some none => true
  | _ => false

end AutoreleasePoolPage

open AutoreleasePoolPage

/-- `malloc_zone_memalign(SIZE, SIZE)`: any choice of an aligned block that is not in use, which
may depend on how many pages were asked for before. -/
structure PageAllocator (cap : Nat) where
  malloc : Nat → List PageAddr → PageAddr
  fresh : ∀ n live, malloc n live ∉ live
  aligned : ∀ n live, SIZE cap ∣ malloc n live

/-- The thread-local value under `AUTORELEASE_POOL_KEY`. -/
inductive PoolTls where
  | nil
  | placeholder
  | page (a : PageAddr)
  deriving DecidableEq

structure PoolHeap where
  pages : AList fun _ : PageAddr => AutoreleasePoolPage
  tls : PoolTls
  /-- The number of pages allocated so far. -/
  mallocs : Nat

namespace PoolHeap

variable {cap : Nat}

def hotPage (p : PoolHeap) : Option PageAddr :=
  match p.tls with
  | .page a => some a
  | .nil => none
  | .placeholder => none

def setHotPage (p : PoolHeap) : Option PageAddr → PoolHeap
  | none => { p with tls := .nil }
  | some a => { p with tls := .page a }

def setPage (p : PoolHeap) (a : PageAddr) (page : AutoreleasePoolPage) : PoolHeap :=
  { p with pages := p.pages.insert a page }

def fuel (p : PoolHeap) : Nat := p.pages.keys.length + 1

/-- `coldPage()`, from the hot page on. -/
def coldPage (p : PoolHeap) : Nat → PageAddr → Option PageAddr
  | 0, _ => none
  | fuel + 1, a =>
    match p.pages.lookup a with
    | none => none
    | some page =>
      match page.parent with
      | none => some a
      | some q => p.coldPage fuel q

/-! ## Adding an entry -/

/-- `new AutoreleasePoolPage(parent)`. -/
def newPage (A : PageAllocator cap) (p : PoolHeap) (parent : Option PageAddr) :
    Option (PageAddr × PoolHeap) :=
  let a := A.malloc p.mallocs p.pages.keys
  let p' : PoolHeap := { p.setPage a ⟨parent, none, []⟩ with mallocs := p.mallocs + 1 }
  match parent with
  | none => some (a, p')
  | some q =>
    match p.pages.lookup q with
    | none => none
    | some page =>
      -- assert(!parent->child)
      if page.child.isSome then none else some (a, p'.setPage q { page with child := some a })

def add (cap : Nat) (p : PoolHeap) (a : PageAddr) (obj : PoolEntry) :
    Option (PoolToken × PoolHeap) :=
  match p.pages.lookup a with
  | none => none
  | some page =>
    -- assert(!full())
    if page.full cap then none
    else some (page.next a, p.setPage a { page with entries := page.entries ++ [obj] })

/-- One round of the loop of `autoreleaseFullPage`: the child, a new one if there is none. -/
def childPage (A : PageAllocator cap) (p : PoolHeap) (a : PageAddr) :
    Option (PageAddr × PoolHeap) :=
  match p.pages.lookup a with
  | none => none
  | some page =>
    match page.child with
    | some c => some (c, p)
    | none => p.newPage A (some a)

/-- The loop of `autoreleaseFullPage`: the next page that is not full. -/
def nonFullPage (A : PageAllocator cap) : Nat → PoolHeap → PageAddr → Option (PageAddr × PoolHeap)
  | 0, _, _ => none
  | fuel + 1, p, a =>
    match p.childPage A a with
    | none => none
    | some (a', p') =>
      match p'.pages.lookup a' with
      | none => none
      | some page => if page.full cap then nonFullPage A fuel p' a' else some (a', p')

def autoreleaseFullPage (A : PageAllocator cap) (p : PoolHeap) (obj : PoolEntry) (a : PageAddr) :
    Option (PoolToken × PoolHeap) :=
  match nonFullPage A p.fuel p a with
  | none => none
  | some (a', p') => (p'.setHotPage (some a')).add cap a' obj

def autoreleaseNoPage (A : PageAllocator cap) (p : PoolHeap) (obj : PoolEntry) :
    Option (PoolToken × PoolHeap) :=
  match p.tls, obj with
  | .page _, _ => none
  | .nil, none => some (EMPTY_POOL_PLACEHOLDER, { p with tls := .placeholder })
  | .nil, some _ =>
    match p.newPage A none with
    | none => none
    | some (a, p') => (p'.setHotPage (some a)).add cap a obj
  | .placeholder, _ =>
    match p.newPage A none with
    | none => none
    | some (a, p') =>
      -- push a boundary on behalf of the previously-placeholder'd pool
      match (p'.setHotPage (some a)).add cap a none with
      | none => none
      | some (_, p'') => p''.add cap a obj

def autoreleaseFast (A : PageAllocator cap) (p : PoolHeap) (obj : PoolEntry) :
    Option (PoolToken × PoolHeap) :=
  match p.hotPage with
  | none => p.autoreleaseNoPage A obj
  | some a =>
    match p.pages.lookup a with
    | none => none
    | some page => if page.full cap then p.autoreleaseFullPage A obj a else p.add cap a obj

/-- `push()`. -/
def push (A : PageAllocator cap) (p : PoolHeap) : Option (PoolToken × PoolHeap) :=
  p.autoreleaseFast A none

/-- `autorelease(obj)`, for an `obj` that is not nil. -/
def autorelease (A : PageAllocator cap) (p : PoolHeap) (obj : Pending) :
    Option (PoolToken × PoolHeap) :=
  p.autoreleaseFast A (some obj)

/-! ## Popping -/

/-- `pageForPointer(token)`. -/
def pageForPointer (cap : Nat) (token : PoolToken) : Option PageAddr :=
  let offset := token % SIZE cap
  if headerSize ≤ offset then some (token - offset) else none

/-- What `pop(token)` goes on with: clear the placeholder that was never used, or
`page->releaseUntil(stop)`. -/
inductive PopCall where
  | clearPlaceholder
  | releaseUntil (page : PageAddr) (stop : PoolToken)

/-- `pop(token)` for a token that is an address. -/
def popAddress (cap : Nat) (p : PoolHeap) (token : PoolToken) : Option PopCall :=
  match pageForPointer cap token with
  | none => none
  | some a =>
    match p.pages.lookup a with
    | none => none
    | some page =>
      -- the start of the coldest page may correctly not be a boundary
      if page.boundaryAt a token ∨ token = slot a 0 ∧ page.parent = none then
        some (.releaseUntil a token)
      else none

def pop (cap : Nat) (p : PoolHeap) (token : PoolToken) : Option PopCall :=
  if token = EMPTY_POOL_PLACEHOLDER then
    match p.hotPage with
    | none => some .clearPlaceholder
    | some a =>
      match p.coldPage p.fuel a with
      | none => none
      | some cold => p.popAddress cap (slot cold 0)
  else p.popAddress cap token

/-- The body of the loop of `releaseUntil`, without the release: from the hot page on, the last
entry of the first page that has one. -/
def popEntry : Nat → PoolHeap → Option (PoolEntry × PoolHeap)
  | 0, _ => none
  | fuel + 1, p =>
    match p.hotPage with
    | none => none
    | some a =>
      match p.pages.lookup a with
      | none => none
      | some page =>
        match page.entries.getLast? with
        | none => popEntry fuel (p.setHotPage page.parent)
        | some obj => some (obj, p.setPage a { page with entries := page.entries.dropLast })

/-- The first loop of `kill()`. -/
def lastPage (p : PoolHeap) : Nat → PageAddr → Option PageAddr
  | 0, _ => none
  | fuel + 1, a =>
    match p.pages.lookup a with
    | none => none
    | some page =>
      match page.child with
      | none => some a
      | some c => p.lastPage fuel c

/-- `delete deathptr` after its parent has been told. -/
def deletePage (p : PoolHeap) (deathptr : PageAddr) : Option PoolHeap :=
  match p.pages.lookup deathptr with
  | none => none
  | some page =>
    -- assert(empty()), assert(!child)
    if page.entries ≠ [] ∨ page.child.isSome then none
    else
      match page.parent with
      | none => some { p with pages := p.pages.erase deathptr }
      | some q =>
        match p.pages.lookup q with
        | none => none
        | some parent =>
          some { p with
            pages := (p.pages.insert q { parent with child := none }).erase deathptr }

/-- The second loop of `kill()`: delete the pages from `deathptr` up to `this`. -/
def deletePages : Nat → PoolHeap → (this deathptr : PageAddr) → Option PoolHeap
  | 0, _, _, _ => none
  | fuel + 1, p, this, deathptr =>
    match p.pages.lookup deathptr with
    | none => none
    | some page =>
      match p.deletePage deathptr with
      | none => none
      | some p' =>
        if deathptr = this then some p'
        else
          match page.parent with
          | none => none
          | some q => deletePages fuel p' this q

def kill (p : PoolHeap) (this : PageAddr) : Option PoolHeap :=
  match p.lastPage p.fuel this with
  | none => none
  | some last => deletePages p.fuel p this last

/-- The end of `releaseUntil` and of `pop`: the page becomes the hot page, and of its empty
children one stays if the page is at least half full. -/
def finishPop (cap : Nat) (p : PoolHeap) (this : PageAddr) : Option PoolHeap :=
  let p' := p.setHotPage (some this)
  match p'.pages.lookup this with
  | none => none
  | some page =>
    match page.child with
    | none => some p'
    | some c =>
      if page.lessThanHalfFull cap then p'.kill c
      else
        match p'.pages.lookup c with
        | none => none
        | some child =>
          match child.child with
          | none => some p'
          | some c' => p'.kill c'

end PoolHeap

/-! ## A thread that uses the pages -/

/-- What the thread is in the middle of. A `pop` of the unused placeholder clears it and
returns; any other is a `releaseUntil`. -/
inductive PoolFrame where
  | code (ops : List (PoolOp Pending)) (tokens : List PoolToken)
  | releaseUntil (page : PageAddr) (stop : PoolToken)
  | clearPlaceholder
  | returning

def PoolHeap.PopCall.frame : PoolHeap.PopCall → PoolFrame
  | .clearPlaceholder => .clearPlaceholder
  | .releaseUntil page stop => .releaseUntil page stop

structure PoolMachine where
  pool : PoolHeap
  frames : List PoolFrame
  released : List ObjPtr

/-- One step of the thread: one call of the interface, one round of the loop of `releaseUntil`,
or a return. -/
def PoolMachine.step {cap : Nat} (A : PageAllocator cap) (m : PoolMachine) : Option PoolMachine :=
  match m.frames with
  | [] => none
  | .code [] tokens :: frames =>
    if tokens = [] ∧ frames ≠ [] then some { m with frames := frames } else none
  | .code (.push :: ops) tokens :: frames =>
    match m.pool.push A with
    | none => none
    | some (token, pool) =>
      some { m with pool := pool, frames := .code ops (token :: tokens) :: frames }
  | .code (.autorelease obj :: ops) tokens :: frames =>
    match m.pool.autorelease A obj with
    | none => none
    | some (_, pool) => some { m with pool := pool, frames := .code ops tokens :: frames }
  | .code (.pop n :: ops) tokens :: frames =>
    match tokens[n]? with
    | none => none
    | some token =>
      match m.pool.pop cap token with
      | none => none
      | some call =>
        some { m with frames := call.frame :: .code ops (tokens.drop (n + 1)) :: frames }
  | .releaseUntil this stop :: frames =>
    match m.pool.pages.lookup this with
    | none => none
    | some page =>
      if page.next this = stop then
        match m.pool.finishPop cap this with
        | none => none
        | some pool => some { m with pool := pool, frames := frames }
      else
        match m.pool.popEntry m.pool.fuel with
        | none => none
        | some (none, pool) => some { m with pool := pool }
        | some (some (.mk obj code), pool) =>
          some { pool := pool, frames := .code code [] :: .releaseUntil this stop :: frames
                 released := m.released ++ [obj] }
  | .clearPlaceholder :: frames =>
    some { m with pool := m.pool.setHotPage none, frames := .returning :: frames }
  | .returning :: frames => some { m with frames := frames }

def PoolMachine.start (program : List (PoolOp Pending)) : PoolMachine :=
  ⟨⟨∅, .nil, 0⟩, [.code program []], []⟩

end ObjcRuntime
