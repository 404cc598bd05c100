import Stencil.Error
import Stencil.Template

namespace Stencil

/-- A template that is kept, and until when. -/
structure CacheEntry where
  key : Text
  template : Template
  expires : Nat
deriving Repr, DecidableEq

/-- A cache in memory: for how many templates there is room, for how many milliseconds one is kept,
the time, and the templates, last used first. If it is full, the one that has not been used for
longest goes. The time is moved on by the host. -/
structure MemoryCache where
  capacity : Nat
  keepMs : Nat
  now : Nat
  entries : List CacheEntry
deriving Repr, DecidableEq

namespace MemoryCache

/-- Templates are kept for two hours, if nothing else is said. -/
def defaultKeepMs : Nat := 2 * 60 * 60 * 1000

/-- An empty cache. There is room for one template at least. -/
def empty (capacity : Nat) : MemoryCache := ⟨max capacity 1, defaultKeepMs, 0, []⟩

/-- Can a cache be made? Its table is laid out at once for all the templates that there is room for,
and no table has more than so many slots. -/
def canHold (slots capacity : Nat) : Bool := max capacity 1 ≤ slots

def isLive (c : MemoryCache) (e : CacheEntry) : Bool := c.now < e.expires

/-- The entry of a key, live or not. -/
def entry? (c : MemoryCache) (key : Text) : Option CacheEntry := c.entries.find? (·.key = key)

def without (c : MemoryCache) (key : Text) : List CacheEntry := c.entries.filter (·.key ≠ key)

def remove (c : MemoryCache) (key : Text) : MemoryCache := { c with entries := c.without key }

/-- The template of a key. This is a use of it; one that is no longer kept is taken out. -/
def get (c : MemoryCache) (key : Text) : Option Template × MemoryCache :=
  match c.entry? key with
  | none => (none, c)
  | some e =>
    if c.isLive e then (some e.template, { c with entries := e :: c.without key })
    else (none, c.remove key)

/-- Is there a template for a key? To ask is no use of it. -/
def has (c : MemoryCache) (key : Text) : Bool := (c.entry? key).any c.isLive

/-- The entries that are left when there has to be room for one more. -/
def makeRoom (c : MemoryCache) (key : Text) : List CacheEntry :=
  if (c.entry? key).isSome then c.without key else c.entries.take (c.capacity - 1)

/-- Is there a template for a key that was made from the same source? -/
def isKept (c : MemoryCache) (key : Text) (template : Template) : Bool :=
  (c.entry? key).any fun e => c.isLive e && e.template.fingerprint = template.fingerprint

/-- Keeps a template. If one made from the same source is there, it stays as it is. -/
def set (c : MemoryCache) (key : Text) (template : Template) : MemoryCache :=
  if c.isKept key template then c
  else { c with entries := ⟨key, template, c.now + c.keepMs⟩ :: c.makeRoom key }

def clear (c : MemoryCache) : MemoryCache := { c with entries := [] }

def setKeep (c : MemoryCache) (ms : Nat) : MemoryCache := { c with keepMs := ms }

def advance (c : MemoryCache) (ms : Nat) : MemoryCache := { c with now := c.now + ms }

end MemoryCache

/-- What comes of a call to something that is locked for it. -/
inductive Locked (α : Type) where
  | done (value : α)
  | refused (err : Error)
  /-- The call stops halfway, and the lock is broken from then on. -/
  | stopped
deriving Repr, DecidableEq

def Locked.map {α β : Type} (f : α → β) : Locked α → Locked β
  | done value => done (f value)
  | refused err => refused err
  | stopped => stopped

/-- A cache in memory as the holders of it and of its clones have it, locked for each call. The
clock can tell the time up to some moment only, and a template that is to be kept for longer stops
the call that writes it. -/
structure SharedCache where
  latest : Nat
  isBroken : Bool
  store : MemoryCache
deriving Repr, DecidableEq

namespace SharedCache

/-- A new cache, if it can be made. -/
def ofCapacity? (latest slots capacity : Nat) : Option SharedCache :=
  if MemoryCache.canHold slots capacity then some ⟨latest, false, .empty capacity⟩ else none

/-- Makes a call to the store, unless the lock is broken. -/
def locked {α : Type} (c : SharedCache) (call : MemoryCache → α × MemoryCache) :
    Locked α × SharedCache :=
  if c.isBroken then (.refused .brokenLock, c)
  else
    let (value, store) := call c.store
    (.done value, { c with store })

/-- Does the clock not tell the time until which a template would be kept? -/
def overflows (c : SharedCache) : Bool := c.latest < c.store.now + c.store.keepMs

def get (c : SharedCache) (key : Text) : Locked (Option Template) × SharedCache :=
  c.locked (·.get key)

def set (c : SharedCache) (key : Text) (template : Template) : Locked Unit × SharedCache :=
  if !c.isBroken && !c.store.isKept key template && c.overflows then
    (.stopped, { c with isBroken := true })
  else c.locked fun m => ((), m.set key template)

def remove (c : SharedCache) (key : Text) : Locked Unit × SharedCache :=
  c.locked fun m => ((), m.remove key)

def clear (c : SharedCache) : Locked Unit × SharedCache := c.locked fun m => ((), m.clear)

/-- Is there a template for a key? A broken lock is no error here: there is none. -/
def has (c : SharedCache) (key : Text) : Bool := !c.isBroken && c.store.has key

/-- Sets for how long templates are kept from now on. A broken lock is no error here either. -/
def setKeep (c : SharedCache) (ms : Nat) : SharedCache :=
  (c.locked fun m => ((), m.setKeep ms)).2

def advance (c : SharedCache) (ms : Nat) : SharedCache := { c with store := c.store.advance ms }

end SharedCache

/-- A cache in memory that could be made, or none. The options of an engine keep templates for less
than 2⁶⁴ milliseconds, so that its clock tells all the times until which they are kept. -/
inductive Cache where
  | off
  | memory (c : MemoryCache)
deriving Repr, DecidableEq

/-- Anything that holds templates by key: what is asked of it may change it. -/
class Storage (σ : Type) where
  get : σ → Text → Option Template × σ
  set : σ → Text → Template → σ

namespace Cache

def ofCapacity (capacity : Nat) : Cache := memory (.empty capacity)

/-- Changes a cache, if there is one. -/
def modify (f : MemoryCache → MemoryCache) : Cache → Cache
  | off => off
  | memory c => memory (f c)

def get (c : Cache) (key : Text) : Option Template × Cache :=
  match c with
  | off => (none, off)
  | memory m =>
    let (template, m) := m.get key
    (template, memory m)

def set (c : Cache) (key : Text) (template : Template) : Cache := c.modify (·.set key template)

instance : Storage Cache := ⟨get, set⟩

def remove (c : Cache) (key : Text) : Cache := c.modify (·.remove key)

def clear (c : Cache) : Cache := c.modify .clear

def setKeep (c : Cache) (ms : Nat) : Cache := c.modify (·.setKeep ms)

def has : Cache → Text → Bool
  | off, _ => false
  | memory m, key => m.has key

end Cache

end Stencil
