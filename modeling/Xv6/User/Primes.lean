import Xv6.Library.Bytes
import Xv6.Pipe.Code

/-! # `primes.c`

Process 0 is `main`, process `k + 1` is the child that process `k` forks, and pipe `k` is the one
that process `k` creates. A system call on a pipe takes effect in one or more sections, each under
the lock of the pipe: `pipewrite` stores what fits and sleeps while the pipe is full, `piperead`
sleeps while it is empty and some process still has the write end open.
-/
namespace Xv6.Primes
open Library
open PipeProtocol (PIPESIZE)
open Function (update)

def encode (x : ℤ) : List Byte := leBytes 4 (BitVec.ofInt 32 x).toNat

def decode (bs : List Byte) : ℤ := (BitVec.ofNat 32 (ofLe bs)).toInt

def printint (n : ℤ) : List Char := (if n < 0 then ['-'] else []) ++ Nat.toDigits 10 n.natAbs

def line (n : ℤ) : List Char := "prime ".toList ++ printint n ++ ['\n']

/-- Where a process is; the comments give the statement it is about to execute. -/
inductive Pc
  | unborn
  /-- `main`: `pipe(p)` -/
  | genPipe (s : List ℤ)
  /-- `fork()` -/
  | genFork (s : List ℤ)
  /-- `close(p[RD])` -/
  | genRd (s : List ℤ)
  /-- the head of the loop, with the numbers still to be written -/
  | gen (s : List ℤ)
  /-- in `write(p[WR], &i, 4)`, with the bytes still to be stored -/
  | genWrite (bs : List Byte) (s : List ℤ)
  /-- `close(p[WR])` -/
  | genWr
  /-- `wait(0)` -/
  | genWait
  /-- the child: `close(p[WR])` -/
  | childWr
  /-- `close(fd_rd)`, which the child of `main` does not have -/
  | childRd
  /-- `prime`: `read(fd_rd, &n, 4)` -/
  | first
  /-- `close(fd_rd)` after a read that did not return 4 -/
  | firstRd
  /-- in `printf`, with the characters still to be written -/
  | print (n : ℤ) (cs : List Char)
  /-- `pipe(p)` -/
  | pipe (n : ℤ)
  /-- `fork()` -/
  | fork (n : ℤ)
  /-- `close(p[RD])` -/
  | rd (n : ℤ)
  /-- `read(fd_rd, &num, 4)` -/
  | loop (n : ℤ)
  /-- in `write(p[WR], &num, 4)` -/
  | write (n : ℤ) (bs : List Byte)
  /-- `close(fd_rd)` after the loop -/
  | fdRd
  /-- `close(p[WR])` after the loop -/
  | wr
  /-- `wait(0)` -/
  | wait
  /-- `close(p[RD])` after `prime` has returned -/
  | last
  /-- `exit(0)` -/
  | exit
  | exited

structure World where
  pc : ℕ → Pc
  data : ℕ → List Byte
  /-- the processes that have the write end of each pipe open -/
  writers : ℕ → Finset ℕ
  readers : ℕ → Finset ℕ
  out : List Char
  born : ℕ

namespace World

def goto (w : World) (k : ℕ) (c : Pc) : World := { w with pc := update w.pc k c }

def openPipe (w : World) (k : ℕ) : World :=
  { w with
    data := update w.data k []
    writers := update w.writers k {k}
    readers := update w.readers k {k} }

/-- `fork()`: the child has every descriptor of its parent. -/
def fork (w : World) (k : ℕ) : World :=
  { w with
    pc := update w.pc w.born .childWr
    writers := fun i => if k ∈ w.writers i then insert w.born (w.writers i) else w.writers i
    readers := fun i => if k ∈ w.readers i then insert w.born (w.readers i) else w.readers i
    born := w.born + 1 }

def closeWr (w : World) (k i : ℕ) : World := { w with writers := update w.writers i ((w.writers i).erase k) }

def closeRd (w : World) (k i : ℕ) : World := { w with readers := update w.readers i ((w.readers i).erase k) }

def closeAll (w : World) (k : ℕ) : World :=
  { w with writers := fun i => (w.writers i).erase k, readers := fun i => (w.readers i).erase k }

/-- One section of `pipewrite`, with the bytes that are left; `none` if the process sleeps. -/
def write (w : World) (i : ℕ) (bs : List Byte) : Option (World × List Byte) :=
  if w.readers i = ∅ then some (w,[])
  else if (w.data i).length < PIPESIZE then
    let room := PIPESIZE - (w.data i).length
    some ({ w with data := update w.data i (w.data i ++ bs.take room) },bs.drop room)
  else none

/-- `piperead` of 4 bytes; `none` if the process sleeps. -/
def read (w : World) (i : ℕ) : Option (World × List Byte) :=
  if w.data i = [] ∧ w.writers i ≠ ∅ then none
  else some ({ w with data := update w.data i ((w.data i).drop 4) },(w.data i).take 4)

/-- What process `k` does next; `none` if it has to wait or does not run. -/
def step (w : World) (k : ℕ) : Option World :=
  match w.pc k with
  | .unborn | .exited => none
  | .genPipe s => some ((w.openPipe k).goto k (.genFork s))
  | .genFork s => some ((w.fork k).goto k (.genRd s))
  | .genRd s => some ((w.closeRd k k).goto k (.gen s))
  | .gen [] => some (w.goto k .genWr)
  | .gen (x :: s) => some (w.goto k (.genWrite (encode x) s))
  | .genWrite bs s => (w.write k bs).map fun r => r.1.goto k (if r.2 = [] then .gen s else .genWrite r.2 s)
  | .genWr => some ((w.closeWr k k).goto k .genWait)
  | .genWait => match w.pc (k + 1) with
    | .exited => some (w.goto k .exit)
    | _ => none
  | .childWr => some ((w.closeWr k (k - 1)).goto k (if k = 1 then .first else .childRd))
  | .childRd => some ((w.closeRd k (k - 2)).goto k .first)
  | .first => (w.read (k - 1)).map fun r =>
    r.1.goto k (if r.2.length = 4 then .print (decode r.2) (line (decode r.2)) else .firstRd)
  | .firstRd => some ((w.closeRd k (k - 1)).goto k .exit)
  | .print n (c :: cs) => some ({ w with out := w.out ++ [c] }.goto k (.print n cs))
  | .print n [] => some (w.goto k (.pipe n))
  | .pipe n => some ((w.openPipe k).goto k (.fork n))
  | .fork n => some ((w.fork k).goto k (.rd n))
  | .rd n => some ((w.closeRd k k).goto k (.loop n))
  | .loop n => (w.read (k - 1)).map fun r =>
    r.1.goto k (if r.2.length = 4 then if (decode r.2).tmod n ≠ 0 then .write n r.2 else .loop n
      else .fdRd)
  | .write n bs => (w.write k bs).map fun r => r.1.goto k (if r.2 = [] then .loop n else .write n r.2)
  | .fdRd => some ((w.closeRd k (k - 1)).goto k .wr)
  | .wr => some ((w.closeWr k k).goto k .wait)
  | .wait => match w.pc (k + 1) with
    | .exited => some (w.goto k .last)
    | _ => none
  | .last => some ((w.closeRd k (k - 1)).goto k .exit)
  | .exit => some ((w.closeAll k).goto k .exited)

def init (s : List ℤ) : World where
  pc := update (fun _ => .unborn) 0 (.genPipe s)
  data := fun _ => []
  writers := fun _ => ∅
  readers := fun _ => ∅
  out := []
  born := 1

end World

inductive Reachable (s : List ℤ) : World → Prop
  | init : Reachable s (.init s)
  | step {w w' : World} (k : ℕ) : Reachable s w → w.step k = some w' → Reachable s w'

/-! ## The sieve -/

def strike (n : ℤ) (t : List ℤ) : List ℤ := t.filter fun x => ¬n ∣ x

theorem strike_length_le (n : ℤ) (t : List ℤ) : (strike n t).length ≤ t.length := List.length_filter_le _ _

def sieve : List ℤ → List ℤ
  | [] => []
  | n :: t => n :: sieve (strike n t)
termination_by l => l.length
decreasing_by
  rw [List.length_cons]
  exact Nat.lt_succ_of_le (strike_length_le n t)

end Xv6.Primes
