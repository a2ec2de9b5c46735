import Xv6.Kernel.Ops

/-! # `log.c`: commit and recovery

The loops read `log.lh` anew in every round, as the code does. A header has at most
`LOGSIZE` entries, so that many rounds reach the end of every loop.
-/
namespace Xv6
open Library
variable {β : Type}

def writeLogFrom : ℕ → ℕ → Code β Unit
  | 0, _ => pure ()
  | fuel + 1, tail => do
    let log ← getLog
    if tail < log.lh.n then
      let dst ← bread (log.start + tail + 1)
      let src ← bread (log.lh.block.getD tail 0)
      let d ← bdata src
      setData dst d
      bwrite dst
      brelse src
      brelse dst
      writeLogFrom fuel (tail + 1)
    else pure ()

def writeLog : Code β Unit := writeLogFrom LOGSIZE 0

def installTransFrom (recovering : Bool) : ℕ → ℕ → Code β Unit
  | 0, _ => pure ()
  | fuel + 1, tail => do
    let log ← getLog
    if tail < log.lh.n then
      let lbuf ← bread (log.start + tail + 1)
      let dbuf ← bread (log.lh.block.getD tail 0)
      let d ← bdata lbuf
      setData dbuf d
      bwrite dbuf
      if recovering then pure () else bunpin dbuf
      brelse lbuf
      brelse dbuf
      installTransFrom recovering fuel (tail + 1)
    else pure ()

def installTrans (recovering : Bool) : Code β Unit := installTransFrom recovering LOGSIZE 0

def readHead : Code β Unit := do
  let log ← getLog
  let buf ← bread log.start
  let d ← bdata buf
  setLh (Logheader.ofBlock d)
  brelse buf

/-- Write in-memory log header to disk. This is the true point at which the current
transaction commits. -/
def writeHead : Code β Unit := do
  let log ← getLog
  let buf ← bread log.start
  let d ← bdata buf
  setData buf (log.lh.toBlock d)
  bwrite buf
  brelse buf

def recoverFromLog : Code β Unit := do
  readHead
  installTrans true
  setLh Logheader.empty
  writeHead

def commit : Code β Unit := do
  let log ← getLog
  if 0 < log.lh.n then
    writeLog
    writeHead
    installTrans false
    setLh Logheader.empty
    writeHead
  else pure ()

def endOp : Code β Unit := do
  let doCommit : Bool ← Prog.call Op.endOp
  if doCommit then
    commit
    Prog.call Op.commitDone
  else pure ()

end Xv6
