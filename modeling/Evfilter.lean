import Evfilter.Evfd.Lock
import Evfilter.Filters.CopyToHandle
import Evfilter.Filters.Divisors
import Evfilter.Filters.FilterToHandle
import Evfilter.Filters.Independence
import Evfilter.Filters.Packets
import Evfilter.Filters.Tables
import Evfilter.Handle.Naming
import Evfilter.IoQueue.Count
import Evfilter.IoQueue.Dispatch
import Evfilter.IoQueue.Remove
import Evfilter.IoQueue.Select
import Evfilter.KeyParser.Search
import Evfilter.Lib.Machine
import Evfilter.Line.Attach
import Evfilter.Loader.Params
import Evfilter.Param.Entries
import Evfilter.Param.Int
import Evfilter.Param.Sentences
import Evfilter.Profile.Load
import Evfilter.Reader.Loading
import Evfilter.Reader.Rows
import Evfilter.Reader.Ownership
import Evfilter.Reader.Endings
import Evfilter.Evfd.Accounting
import Evfilter.Hotplug.Handover
import Evfilter.Reader.Agreement
import Evfilter.Lib.Transducer
import Evfilter.Filters.Stream
import Evfilter.Filters.Strokes
import Evfilter.Filters.Syncs
import Evfilter.IoQueue.Destroy
import Evfilter.IoQueue.Serving
import Evfilter.Filters.Window
import Evfilter.Filters.Scaling
import Evfilter.Filters.Pressing
import Evfilter.Filters.Uninitialised
import Evfilter.Line.Process
import Evfilter.Line.Destroy
import Evfilter.Input.Names
import Evfilter.KeyParser.Bisect
import Evfilter.Filters.Chains
import Evfilter.Filters.Loops
import Evfilter.Filters.Coordinates
import Evfilter.Filters.Kalman
import Evfilter.Filters.Untouched
import Evfilter.Filters.Slowing
import Evfilter.Filters.Lifetimes
import Evfilter.Evfd.Events
import Evfilter.Evfd.Leaks
import Evfilter.Filters.Configuring
