/-
# Switch.Code -- what the kernel does with its locks

Every function of the kernel that takes a lock, sleeps, or calls one that does, as a `Flow`
over the primitives that locking and scheduling are made of.  Conditions on data are left to
the surroundings, and so are the data; what a function does with interrupts, locks and the
states of processes is as in the source, in its order.  A function with several exits that
all release the same lock releases it once, at the end.  `yield` is left out: nothing calls it.

`sleep` and `wakeup` have no channel: any set of sleeping processes may wake up.
-/
import Xv6Rpi.Kernel.State
import Xv6Rpi.Proc.Table
import Xv6Rpi.Theory.Flow

namespace Xv6Rpi.Switch

open Theory Theory.Flow Kernel Proc

set_option autoImplicit false

/-- The spinlocks; which pipe a lock belongs to does not matter. -/
inductive Lock where
  | ptable
  | kmem
  | kpt
  | cons
  | input
  | bcache
  | icache
  | ftable
  | log
  | ticks
  | pipe
  deriving DecidableEq, Repr

inductive Prim where
  | pushcli
  | popcli
  /-- `lk->locked = b` -/
  | setLocked (lk : Lock) (b : Bool)
  | sti
  | sched
  /-- `if(proc == 0) panic("sleep")` -/
  | needProc
  /-- `proc->state = st` -/
  | setSelf (st : Procstate)
  /-- some sleeping processes become runnable -/
  | wake
  /-- the search through the table has come to `p`, which is in this state -/
  | find (p : Pid) (st : Procstate)
  /-- there is no unused slot -/
  | full
  /-- `p->state = st` -/
  | setState (p : Pid) (st : Procstate)
  /-- `p->context` and `p->tf`: the process starts in `forkret`, which returns to `trapret` -/
  | context (p : Pid)
  /-- the scheduler's loop starts at the first slot -/
  | rewind
  /-- the loop comes to the next runnable process, which becomes `proc` -/
  | choose
  /-- the loop comes to its end -/
  | scanned
  /-- `swtch(&cpu->scheduler, proc->context)` -/
  | swtch
  /-- `proc = 0` -/
  | clearProc
  /-- the two branches on `first` in `forkret` -/
  | ifFirst
  | unlessFirst
  | panic (msg : String)
  deriving DecidableEq, Repr

abbrev Code := Flow Prim Pid

abbrev panic (msg : String) : Code := .prim (.panic msg)

/-- `if(...) panic(msg)` -/
abbrev orPanic (msg : String) : Code := .opt (panic msg)

/-! ## Spinlocks -/

def pushcli : Code := .prim .pushcli

def popcli : Code := .prim .popcli

def initlock (lk : Lock) : Code := .prim (.setLocked lk false)

def acquire (lk : Lock) : Code := .block [pushcli, .prim (.setLocked lk true)]

def release (lk : Lock) : Code := .block [.prim (.setLocked lk false), popcli]

/-- A section under a lock. -/
def locked (lk : Lock) (l : List Code) : Code := .block [acquire lk, .block l, release lk]

/-! ## Sleeping and waking -/

def sleep (lk : Lock) : Code :=
  .block [.prim .needProc,
    if lk = .ptable then .skip else .block [acquire .ptable, release lk],
    .prim (.setSelf .sleeping), .prim .sched,
    if lk = .ptable then .skip else .block [release .ptable, acquire lk]]

def wakeup1 : Code := .prim .wake

def wakeup : Code := locked .ptable [wakeup1]

def kill : Code := locked .ptable [.opt (.prim .wake)]

/-! ## Memory -/

abbrev kmalloc : Code := .block [orPanic "kmalloc: order out of range\n", locked .kmem []]

abbrev kfree : Code :=
  .block [orPanic "kfree: order out of range or memory unaligned\n",
    locked .kmem [orPanic "kfree: double free"]]

/-- The loop of `kmem_init2` that gives the heap its blocks. -/
abbrev kmemInit2 : Code := .loop kfree

abbrev allocPage : Code := kmalloc

abbrev freePage : Code := kfree

abbrev kptFree : Code := .choice kfree (locked .kpt [])

abbrev kptAlloc : Code :=
  .block [locked .kpt [], .opt (.block [kmalloc, orPanic "oom: kpt_alloc"])]

abbrev cprintf : Code :=
  .choice (orPanic "null fmt") (locked .cons [orPanic "null fmt"])

/-- `walkpgdir` with `alloc` set; without it takes no lock. -/
abbrev walkpgdir : Code := .opt kptAlloc

abbrev mappages : Code := .loop (.block [walkpgdir, orPanic "remap"])

def switchuvm : Code := .block [pushcli, orPanic "switchuvm: no pgdir", popcli]

abbrev inituvm : Code := .block [orPanic "inituvm: more than a page", allocPage, mappages]

abbrev deallocuvm : Code := .loop (.opt (.block [orPanic "deallocuvm", freePage]))

def allocuvm : Code :=
  .block [.loop (.block [allocPage, mappages]),
    .opt (.block [allocPage, cprintf, deallocuvm])]

def freevm : Code := .block [orPanic "freevm: no pgdir", deallocuvm, .loop kptFree, kptFree]

abbrev copyuvm : Code :=
  .block [kptAlloc,
    .loop (.block [orPanic "copyuvm: pte should exist", orPanic "copyuvm: page not present",
      allocPage, mappages]),
    .opt (.block [allocPage, .opt mappages, freevm])]

/-! ## Blocks -/

def bget : Code :=
  .block [acquire .bcache, .loop (sleep .bcache),
    .choice (release .bcache) (panic "bget: no buffers")]

abbrev iderw : Code :=
  .block [orPanic "iderw: buf not busy", orPanic "iderw: nothing to do",
    orPanic "iderw: request not for disk 1", orPanic "iderw: sector out of range"]

def bread : Code := .block [bget, .opt iderw]

abbrev bwrite : Code := .block [orPanic "bwrite", iderw]

abbrev brelse : Code := .block [orPanic "brelse", locked .bcache [wakeup]]

abbrev readsb : Code := .block [bread, brelse]

/-! ## The log -/

def installTrans : Code := .loop (.block [bread, bread, bwrite, brelse, brelse])

abbrev readHead : Code := .block [bread, brelse]

abbrev writeHead : Code := .block [bread, bwrite, brelse]

abbrev recoverFromLog : Code := .block [readHead, installTrans, writeHead]

abbrev initlog : Code :=
  .block [orPanic "initlog: too big logheader", initlock .log, readsb, recoverFromLog]

def beginTrans : Code := locked .log [.loop (sleep .log)]

def commitTrans : Code :=
  .block [.opt (.block [writeHead, installTrans, writeHead]), locked .log [wakeup]]

def logWrite : Code :=
  .block [orPanic "too big a transaction", orPanic "write outside of trans", bread, bwrite, brelse]

/-! ## Inodes -/

abbrev bzero : Code := .block [bread, logWrite, brelse]

def balloc : Code :=
  .block [readsb, .loop (.block [bread, brelse]),
    .choice (.block [bread, logWrite, brelse, bzero]) (panic "balloc: out of blocks")]

def bfree : Code := .block [readsb, bread, orPanic "freeing free block", logWrite, brelse]

abbrev iget : Code := locked .icache [orPanic "iget: no inodes"]

abbrev idup : Code := locked .icache []

abbrev ialloc : Code :=
  .block [readsb, .loop (.block [bread, brelse]),
    .choice (.block [bread, logWrite, brelse, iget]) (panic "ialloc: no inodes")]

def iupdate : Code := .block [bread, logWrite, brelse]

def ilock : Code :=
  .block [orPanic "ilock", locked .icache [.loop (sleep .icache)],
    .opt (.block [bread, brelse, orPanic "ilock: no type"])]

abbrev iunlock : Code := .block [orPanic "iunlock", locked .icache [wakeup]]

abbrev itrunc : Code :=
  .block [.loop bfree, .opt (.block [bread, .loop bfree, brelse, bfree]), iupdate]

/-- `iput` gives up the lock while it frees the inode. -/
def iput : Code :=
  .block [acquire .icache,
    .opt (.block [orPanic "iput busy", release .icache, itrunc, iupdate, acquire .icache, wakeup]),
    release .icache]

def iunlockput : Code := .block [iunlock, iput]

abbrev bmap : Code :=
  .oneOf [.opt balloc,
    .block [.opt balloc, bread, .opt (.block [balloc, logWrite]), brelse],
    panic "bmap: out of range"]

/-! ## The console -/

abbrev procdump : Code := .loop cprintf

abbrev consoleintr : Code := locked .input [.loop (.oneOf [procdump, .skip, wakeup])]

abbrev consoleread : Code := .block [iunlock, locked .input [.loop (sleep .input)], ilock]

abbrev consolewrite : Code := .block [iunlock, locked .cons [], ilock]

/-! ## Files -/

def readi : Code := .choice (.opt consoleread) (.loop (.block [bmap, bread, brelse]))

def writei : Code :=
  .choice (.opt consolewrite)
    (.block [.loop (.block [bmap, bread, logWrite, brelse]), .opt iupdate])

def dirlookup : Code :=
  .block [orPanic "dirlookup not DIR", .loop (.block [readi, orPanic "dirlink read"]), .opt iget]

def dirlink : Code :=
  .block [dirlookup,
    .choice iput
      (.block [.loop (.block [readi, orPanic "dirlink read"]), writei, orPanic "dirlink"])]

def namex : Code :=
  .block [.choice iget idup, .loop (.block [ilock, dirlookup, iunlockput]),
    .oneOf [.skip, iput, .block [ilock, iunlockput], .block [ilock, iunlock],
      .block [ilock, dirlookup, iunlockput]]]

abbrev namei : Code := namex

abbrev nameiparent : Code := namex

abbrev pipeclose : Code := .block [locked .pipe [wakeup], .opt kfree]

abbrev pipewrite : Code := locked .pipe [.loop (.block [wakeup, sleep .pipe]), .opt wakeup]

abbrev piperead : Code := locked .pipe [.loop (sleep .pipe), .opt wakeup]

abbrev filealloc : Code := locked .ftable []

abbrev filedup : Code := locked .ftable [orPanic "filedup"]

def fileclose : Code :=
  .block [locked .ftable [orPanic "fileclose"],
    .oneOf [.skip, pipeclose, .block [beginTrans, iput, commitTrans]]]

abbrev filestat : Code := .opt (.block [ilock, iunlock])

def fileread : Code :=
  .oneOf [.skip, piperead, .block [ilock, readi, iunlock], panic "fileread"]

def filewrite : Code :=
  .oneOf [.skip, pipewrite,
    .loop (.block [beginTrans, ilock, writei, iunlock, commitTrans, orPanic "short filewrite"]),
    panic "filewrite"]

abbrev pipealloc : Code :=
  .block [filealloc, .opt filealloc, .opt kmalloc,
    .choice (initlock .pipe) (.block [.opt kfree, .opt fileclose, .opt fileclose])]

/-! ## Processes -/

/-- `allocproc`, with what is done with the process it finds, or without one. -/
def allocproc (found : Pid → Code) (failed : Code) : Code :=
  .block [acquire .ptable,
    .choice (.block [.prim .full, release .ptable, failed])
      (.any fun p => .block [.prim (.find p .unused), .prim (.setState p .embryo), release .ptable,
        allocPage,
        .choice (.block [.prim (.setState p .unused), failed])
          (.block [.prim (.context p), found p])])]

/-- `userinit`; without memory it writes to address 0, and the abort handler stops. -/
def userinit : Code :=
  allocproc (fun p => .block [kptAlloc, orPanic "userinit: out of memory?", inituvm, iget,
    .prim (.setState p .runnable)]) (panic "data abort")

def growproc : Code := .block [.oneOf [.skip, allocuvm, deallocuvm], .opt switchuvm]

def fork : Code :=
  allocproc (fun np => .block [copyuvm,
    .choice (.block [freePage, .prim (.setState np .unused)])
      (.block [.loop filedup, idup, .prim (.setState np .runnable)])]) .skip

def exit : Code :=
  .block [orPanic "init exiting", .loop fileclose, iput, acquire .ptable, wakeup1, .loop wakeup1,
    .prim (.setSelf .zombie), .prim .sched, panic "zombie exit"]

def wait : Code :=
  .block [acquire .ptable, .loop (sleep .ptable),
    .choice (release .ptable)
      (.any fun p => .block [.prim (.find p .zombie), freePage, freevm, .prim (.setState p .unused),
        release .ptable])]

def scheduler : Code :=
  .forever (.block [.prim .sti, acquire .ptable, .prim .rewind,
    .loop (.block [.prim .choose, switchuvm, .prim (.setSelf .running), .prim .swtch,
      .prim .clearProc]),
    .prim .scanned, release .ptable])

def forkret : Code :=
  .block [release .ptable, .choice (.block [.prim .ifFirst, initlog]) (.prim .unlessFirst)]

/-! ## System calls -/

def loaduvm : Code :=
  .block [orPanic "loaduvm: addr must be page aligned",
    .loop (.block [orPanic "loaduvm: address should exist", readi])]

/-- The label `bad` of `exec`, with and without an inode. -/
def execBad : Code := .block [.opt freevm, iunlockput]

def exec : Code :=
  .block [namei, .opt (.block [ilock, readi,
    .choice execBad (.block [kptAlloc, .loop (.block [readi, .opt (.block [allocuvm, loaduvm])]),
      .oneOf [.block [readi, execBad], .block [readi, allocuvm, execBad],
        .block [readi, allocuvm, loaduvm, execBad],
        .block [iunlockput, allocuvm,
          .choice freevm (.block [orPanic "clearpteu", .choice freevm (.block [switchuvm, freevm])])]]])])]

abbrev isdirempty : Code := .loop (.block [readi, orPanic "isdirempty: readi"])

def create : Code :=
  .block [nameiparent, .opt (.block [ilock, dirlookup,
    .choice (.block [iunlockput, ilock, .opt iunlockput])
      (.block [ialloc, orPanic "create: ialloc", ilock, iupdate,
        .opt (.block [iupdate, dirlink, dirlink, orPanic "create dots"]),
        dirlink, orPanic "create: dirlink", iunlockput])])]

abbrev sysSleep : Code := locked .ticks [.loop (sleep .ticks)]

abbrev sysUptime : Code := locked .ticks []

abbrev sysLinkBad : Code := .block [ilock, iupdate, iunlockput, commitTrans]

def sysLink : Code :=
  .block [namei, .opt (.block [beginTrans, ilock,
    .choice (.block [iunlockput, commitTrans])
      (.block [iupdate, iunlock, nameiparent,
        .choice sysLinkBad
          (.block [ilock, .opt dirlink, iunlockput,
            .choice sysLinkBad (.block [iput, commitTrans])])])])]

abbrev sysUnlinkBad : Code := .block [iunlockput, commitTrans]

def sysUnlink : Code :=
  .block [nameiparent, .opt (.block [beginTrans, ilock,
    .choice sysUnlinkBad
      (.block [dirlookup,
        .choice sysUnlinkBad
          (.block [ilock, orPanic "unlink: nlink < 1", .opt isdirempty,
            .choice (.block [iunlockput, sysUnlinkBad])
              (.block [writei, orPanic "unlink: writei", .opt iupdate, iunlockput, iupdate,
                iunlockput, commitTrans])])])])]

def sysOpen : Code :=
  .block [.choice (.block [beginTrans, create, commitTrans]) (.block [namei, .opt ilock]),
    .oneOf [.skip, iunlockput, .block [filealloc, .opt fileclose, iunlockput],
      .block [filealloc, iunlock]]]

/-- `sys_mkdir` and `sys_mknod` do the same with locks. -/
abbrev sysMkdir : Code :=
  .block [beginTrans, .opt create, .opt iunlockput, commitTrans]

abbrev sysMknod : Code := sysMkdir

def sysChdir : Code :=
  .block [namei, .opt (.block [ilock, .choice iunlockput (.block [iunlock, iput])])]

def sysPipe : Code := .block [pipealloc, .opt (.block [fileclose, fileclose])]

/-- `syscall`, and all that it can call. -/
def syscall : Code :=
  .oneOf [fork, exit, wait, .opt sysPipe, .opt fileread, .opt kill, .opt exec, .opt filestat,
    .opt sysChdir, .opt filedup, .skip, growproc, sysSleep, sysUptime, sysOpen, .opt filewrite,
    sysMknod, sysUnlink, sysLink, sysMkdir, .opt fileclose, cprintf]

/-! ## Interrupts -/

abbrev isrTimer : Code := locked .ticks [wakeup]

abbrev isrUart : Code := .opt consoleintr

abbrev defaultIsr : Code := cprintf

abbrev picDispatch : Code := .loop (.oneOf [isrTimer, isrUart, defaultIsr])

def irqHandler : Code := picDispatch

/-! ## Boot -/

abbrev trapInit : Code :=
  .loop (.block [allocPage, orPanic "failed to alloc memory for irq stack"])

abbrev picEnable : Code := orPanic "invalid interrupt source"

def kmain : Code :=
  .block [initlock .kpt, mappages, initlock .kmem, kmemInit2, trapInit, picEnable,
    initlock .cons, initlock .input, initlock .ptable, initlock .bcache, initlock .ftable, initlock .icache,
    initlock .ticks, picEnable, .prim .sti, userinit, scheduler]

end Xv6Rpi.Switch
