import OsHw.Lib.Family
import OsHw.Hw4.Program
import OsHw.Hw4.Actions
import OsHw.Hw4.Discipline
import OsHw.Hw4.Output
import OsHw.Hw4.Correct
import OsHw.Hw4.Progress
import OsHw.Hw4.Stalls
import OsHw.Hw3.Driver
import OsHw.Hw3.Layout
import OsHw.Hw3.Refinement
import OsHw.Hw3.History
import OsHw.Hw3.Clients
import OsHw.Ex5.Connection
import OsHw.Ex5.Exchange
import OsHw.Ex5.Agreement
import OsHw.Ex5.Exact
import OsHw.Ex5.Waits
import OsHw.Ex5.Server
import OsHw.Ex5.Statistics
import OsHw.Lib.Mutex
import OsHw.Ex5.Shutdown
import OsHw.Hw4.Spurious
import OsHw.Ex5.Hangs
import OsHw.Hw1.Intervals
import OsHw.Lib.Loops
import OsHw.Lib.Segments
import OsHw.Hw1.Minimiser
import OsHw.Hw3.Atomic
import OsHw.Hw3.Cleanup
import OsHw.Hw3.Delivery
import OsHw.Hw3.Ownership
import OsHw.Hw1.Replace
import OsHw.Hw1.Substitution
import OsHw.Hw2.Shell
import OsHw.Hw2.Phases
import OsHw.Hw2.Pipes
import OsHw.Hw2.Launch
import OsHw.Hw2.Waits
import OsHw.Ex5.Announced
import OsHw.Hw3.Unload
import OsHw.Hw3.Numbers
import OsHw.Hw3.Programs
import OsHw.Hw4.Size
import OsHw.Hw1.Rounds
import OsHw.Hw1.Hypotheses
import OsHw.Hw1.Loading
import OsHw.Hw1.Risk
import OsHw.Hw1.Ties
import OsHw.Hw1.Reported
import OsHw.Hw3.Registry
import OsHw.Hw3.Bounds
import OsHw.Lib.Fields
import OsHw.Hw2.Words
import OsHw.Hw2.Session
import OsHw.Hw2.Commands
import OsHw.Hw2.Jobs
import OsHw.Hw2.Leaks
import OsHw.Hw3.Trails
import OsHw.Hw3.Lost
import OsHw.Lib.Experiments
import OsHw.Hw3.Equivalence
import OsHw.Hw3.Sender
import OsHw.Hw4.Termination
import OsHw.Hw4.Failures
import OsHw.Hw4.Variants
import OsHw.Ex5.Network
import OsHw.Ex5.Served
import OsHw.Ex5.Silent
import OsHw.Lib.Blocks
import OsHw.Hw1.Learner
import OsHw.Hw1.Script
import OsHw.Lib.Restore
import OsHw.Hw1.Restored
import OsHw.Hw1.Main
